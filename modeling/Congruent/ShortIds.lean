import Congruent.Store
import Congruent.Machine
import Congruent.KeyedMap

/-!
# Short ids of events and state keys (`mtxdb/src/shortids.rs`)

Four maps and one counter. The tables are a function of the database; what a call
allocates is staged, seen through the transaction, and then committed as a whole.
-/

namespace Congruent.ShortIds

open Store

def u32Max : Nat := 4294967295

def u64Max : Nat := 18446744073709551615

inductive Map where
  | eventForward
  | eventReverse
  | stateKeyForward
  | stateKeyReverse

def Map.name : Map → String
  | eventForward => "short-eid"
  | eventReverse => "short-eid-rev"
  | stateKeyForward => "short-sk"
  | stateKeyReverse => "short-sk-rev"

def withPrefix (short : Nat) (tail : Bytes) : Bytes := toBeBytes 8 short ++ tail

def splitPrefix (bytes : Bytes) : Except StorageError (Nat × Bytes) :=
  if bytes.length < 8 then .error (.corrupt "short id record is truncated")
  else .ok (ofBeBytes (bytes.take 8), bytes.drop 8)

/-- `encode_state_key_v1`. -/
def encodeStateKey (eventType stateKey : String) : Except StorageError Bytes :=
  let eventType := utf8 eventType
  let stateKey := utf8 stateKey
  if u32Max < eventType.length then .error (.corrupt "event type is too long")
  else if u32Max < stateKey.length then .error (.corrupt "state key is too long")
  else
    .ok ([1] ++ (toBeBytes 4 eventType.length).reverse ++ eventType ++ (toBeBytes 4 stateKey.length).reverse ++
      stateKey)

def decodeStateKey (encoded : Bytes) : Except StorageError (String × String) :=
  let decoded : Option (String × String) := do
    let v ← splitAt 1 encoded
    if v.1 ≠ [1] then none
    else
      let typeLen ← splitAt 4 v.2
      let eventType ← splitAt (ofBeBytes typeLen.1.reverse) typeLen.2
      let keyLen ← splitAt 4 eventType.2
      if keyLen.2.length ≠ ofBeBytes keyLen.1.reverse then none
      else
        let type ← ofUtf8 eventType.1
        let key ← ofUtf8 keyLen.2
        some (type, key)
  decoded.elim (.error (.corrupt "state key record is malformed")) .ok

section
variable {Id : Type} (ids : Ids Id)

def Map.collection (m : Map) (node : Id) : Id :=
  ids.deriveId "sys" (utf8 (m.name ++ ":" ++ toString (ids.head node % ids.eventLocatorBuckets)))

def Map.record (m : Map) (node : Id) : Record Id := ⟨.serverInfo, m.collection ids node, node⟩

def counterRecord : Record Id :=
  ⟨.serverInfo, ids.deriveId "sys" (utf8 "short-counter"), ids.deriveId "short" (utf8 "counter")⟩

def forwardEventNode (eventId : Bytes) : Id := ids.eventRecordId eventId

def forwardStateKeyNode (encoded : Bytes) : Id := ids.deriveId "short-statekey" encoded

def reverseNode (domain : String) (short : Nat) : Id := ids.deriveId domain (toBeBytes 8 short)

abbrev EventId := { id : Bytes // id ≠ [] }

end

/-! ## The adapter -/

section
variable {Id : Type} [DecidableEq Id] {E : Engine Id} (ids : Ids Id)

/-- The store and the counter of an open adapter, held across an allocation. -/
structure Adapter (E : Engine Id) where
  store : Store.World E
  counter : Nat

def storePart : Lens (Adapter E) (Store.World E) where
  get a := a.store
  put w a := { a with store := w }
  get_put _ _ := rfl
  put_get _ := rfl
  put_put _ _ _ := rfl

abbrev Use (E : Engine Id) (A : Type) := Call StorageError (Adapter E) A

def onStore {A : Type} (p : Access E A) : Use E A := Call.zoom storePart p

def read (E : Engine Id) (r : Record Id) : Use E (Option Bytes) := onStore (ask fun db => E.get db r)

def decodeCounter : Option Bytes → Except StorageError Nat
  | some bytes =>
    if bytes.length = 8 then .ok (ofBeBytes bytes) else .error (.corrupt "short id counter record is malformed")
  | none => .ok 0

/-- Opens the adapter again on its store. -/
def reopen : Use E Unit := do
  let bytes ← read E (counterRecord ids)
  let counter ← onStore (check (decodeCounter bytes))
  Call.modify fun a => { a with counter := counter }

/-- The short id in a forward record, for the name that it was stored for. -/
def decodeForward (name : Bytes) : Option Bytes → Except StorageError (Option Nat)
  | some bytes => (splitPrefix bytes).map fun p => if p.2 = name then some p.1 else none
  | none => .ok none

structure Batch (Id : Type) where
  resolved : AList fun _ : EventId => Nat
  next : Nat
  tx : Transaction Id
  allocated : Bool

def putCounter (tx : Transaction Id) (value : Nat) : Transaction Id :=
  tx.put (counterRecord ids) (toBeBytes 8 value)

def Batch.assign (b : Batch Id) (eventId : EventId) : Except StorageError (Batch Id) :=
  if u64Max ≤ b.next then .error (.corrupt "short id counter overflow")
  else
    let next := b.next + 1
    let tx := b.tx.put (Map.eventForward.record ids (forwardEventNode ids eventId.1)) (withPrefix next eventId.1)
    let tx := tx.put (Map.eventReverse.record ids (reverseNode ids "short-eid-rev" next)) eventId.1
    .ok ⟨b.resolved.insert eventId next, next, tx, true⟩

def Batch.resolve (b : Batch Id) (eventId : EventId) : Option Bytes → Except StorageError (Batch Id)
  | some bytes => do
    let stored ← splitPrefix bytes
    if stored.2 ≠ eventId.1 then .error (.corrupt "event record id collision in short ids")
    else .ok { b with resolved := b.resolved.insert eventId stored.1 }
  | none => b.assign ids eventId

def allocateEvent (b : Batch Id) (eventId : EventId) : Use E (Batch Id) :=
  if eventId ∈ b.resolved then pure b
  else do
    let bytes ← read E (Map.eventForward.record ids (forwardEventNode ids eventId.1))
    onStore (check (b.resolve ids eventId bytes))

def allocateEvents (eventIds : List EventId) : Use E (List Nat) := do
  let counter ← Call.read fun a => a.counter
  let b ← eventIds.foldlM (allocateEvent ids) ⟨∅, counter, .begin, false⟩
  if b.allocated then
    onStore (commit E (putCounter ids b.tx b.next))
    Call.modify fun a => { a with counter := b.next }
  pure (eventIds.map fun id => (b.resolved.lookup id).getD 0)

def stateKeyTransaction (next : Nat) (encoded : Bytes) : Transaction Id :=
  let tx := Transaction.begin.put (Map.stateKeyForward.record ids (forwardStateKeyNode ids encoded))
    (withPrefix next encoded)
  let tx := tx.put (Map.stateKeyReverse.record ids (reverseNode ids "short-sk-rev" next)) encoded
  putCounter ids tx next

def allocateStateKey (eventType stateKey : String) : Use E Nat := do
  let encoded ← onStore (check (encodeStateKey eventType stateKey))
  let counter ← Call.read fun a => a.counter
  let bytes ← read E (Map.stateKeyForward.record ids (forwardStateKeyNode ids encoded))
  match bytes with
  | some bytes => do
    let stored ← onStore (check (splitPrefix bytes))
    if stored.2 ≠ encoded then throw (.corrupt "state key record id collision in short ids")
    else pure stored.1
  | none =>
    if u64Max ≤ counter then throw (.corrupt "short id counter overflow")
    else
      onStore (commit E (stateKeyTransaction ids (counter + 1) encoded))
      Call.modify fun a => { a with counter := counter + 1 }
      pure (counter + 1)

end

/-! ## The tables -/

inductive Kind where
  | event
  | stateKey
  deriving DecidableEq

/-- The places of the maps and of the counter. -/
inductive Slot where
  | forward (kind : Kind) (name : Bytes)
  | reverse (kind : Kind) (short : Nat)
  | counter
  deriving DecidableEq

/-- The short id of a place is one. -/
def Slot.InRange : Slot → Prop
  | .reverse _ short => short ≤ u64Max
  | _ => True

theorem Slot.inRange_counter : Slot.counter.InRange := trivial

theorem Slot.inRange_forward (kind : Kind) (name : Bytes) : (Slot.forward kind name).InRange := trivial

theorem Slot.inRange_reverse (kind : Kind) {s : Nat} (hs : s ≤ u64Max) : (Slot.reverse kind s).InRange := hs

section
variable {Id : Type} (ids : Ids Id)

def Slot.record : Slot → Record Id
  | .forward .event name => Map.eventForward.record ids (forwardEventNode ids name)
  | .forward .stateKey name => Map.stateKeyForward.record ids (forwardStateKeyNode ids name)
  | .reverse .event short => Map.eventReverse.record ids (reverseNode ids "short-eid-rev" short)
  | .reverse .stateKey short => Map.stateKeyReverse.record ids (reverseNode ids "short-sk-rev" short)
  | .counter => counterRecord ids

variable {ids}

theorem deriveId_ne {domain domain' : String} (h : domain ≠ domain') {key key' : Bytes} :
    ids.deriveId domain key ≠ ids.deriveId domain' key' :=
  fun heq => h (ids.deriveId_inj heq).1

theorem reverseNode_inj {domain : String} {s s' : Nat} (hs : s ≤ u64Max) (hs' : s' ≤ u64Max)
    (h : reverseNode ids domain s = reverseNode ids domain s') : s = s' := by
  have hlt : ∀ n, n ≤ u64Max → n < 256 ^ 8 := by
    intro n hn
    unfold u64Max at hn
    omega
  exact toBeBytes_inj (hlt s hs) (hlt s' hs') (ids.deriveId_inj h).2

theorem Slot.record_inj {s s' : Slot} (hs : s.InRange) (hs' : s'.InRange) (h : s.record ids = s'.record ids) :
    s = s' := by
  have hnode : (s.record ids).node = (s'.record ids).node := by rw [h]
  clear h
  match s, s' with
  | .forward .event name, .forward .event name' => rw [ids.eventRecordId_inj hnode]
  | .forward .event _, .forward .stateKey _ => exact absurd hnode (ids.eventRecordId_ne (by decide))
  | .forward .event _, .reverse .event _ => exact absurd hnode (ids.eventRecordId_ne (by decide))
  | .forward .event _, .reverse .stateKey _ => exact absurd hnode (ids.eventRecordId_ne (by decide))
  | .forward .event _, .counter => exact absurd hnode (ids.eventRecordId_ne (by decide))
  | .forward .stateKey _, .forward .event _ => exact absurd hnode.symm (ids.eventRecordId_ne (by decide))
  | .forward .stateKey name, .forward .stateKey name' => rw [(ids.deriveId_inj hnode).2]
  | .forward .stateKey _, .reverse .event _ => exact absurd hnode (deriveId_ne (by decide))
  | .forward .stateKey _, .reverse .stateKey _ => exact absurd hnode (deriveId_ne (by decide))
  | .forward .stateKey _, .counter => exact absurd hnode (deriveId_ne (by decide))
  | .reverse .event _, .forward .event _ => exact absurd hnode.symm (ids.eventRecordId_ne (by decide))
  | .reverse .event _, .forward .stateKey _ => exact absurd hnode (deriveId_ne (by decide))
  | .reverse .event short, .reverse .event short' => rw [reverseNode_inj hs hs' hnode]
  | .reverse .event _, .reverse .stateKey _ => exact absurd hnode (deriveId_ne (by decide))
  | .reverse .event _, .counter => exact absurd hnode (deriveId_ne (by decide))
  | .reverse .stateKey _, .forward .event _ => exact absurd hnode.symm (ids.eventRecordId_ne (by decide))
  | .reverse .stateKey _, .forward .stateKey _ => exact absurd hnode (deriveId_ne (by decide))
  | .reverse .stateKey _, .reverse .event _ => exact absurd hnode (deriveId_ne (by decide))
  | .reverse .stateKey short, .reverse .stateKey short' => rw [reverseNode_inj hs hs' hnode]
  | .reverse .stateKey _, .counter => exact absurd hnode (deriveId_ne (by decide))
  | .counter, .forward .event _ => exact absurd hnode.symm (ids.eventRecordId_ne (by decide))
  | .counter, .forward .stateKey _ => exact absurd hnode (deriveId_ne (by decide))
  | .counter, .reverse .event _ => exact absurd hnode (deriveId_ne (by decide))
  | .counter, .reverse .stateKey _ => exact absurd hnode (deriveId_ne (by decide))
  | .counter, .counter => rfl

end

/-- The maps of both kinds are inverse, and their short ids are distinct and counted. -/
structure Tables (v : Slot → Option Bytes) (counter : Nat) : Prop where
  bound : counter ≤ u64Max
  forward : ∀ kind name bytes, v (.forward kind name) = some bytes →
    ∃ s, bytes = withPrefix s name ∧ 1 ≤ s ∧ s ≤ counter ∧ v (.reverse kind s) = some name
  reverse : ∀ kind s name, s ≤ u64Max → v (.reverse kind s) = some name →
    1 ≤ s ∧ s ≤ counter ∧ v (.forward kind name) = some (withPrefix s name)
  apart : ∀ s name name', s ≤ u64Max → v (.reverse .event s) = some name → v (.reverse .stateKey s) ≠ some name'

theorem Tables.assign {v v' : Slot → Option Bytes} {counter : Nat} {kind : Kind} {name : Bytes}
    (h : Tables v counter) (hnext : counter < u64Max) (hnew : v (.forward kind name) = none)
    (hf : v' (.forward kind name) = some (withPrefix (counter + 1) name))
    (hr : v' (.reverse kind (counter + 1)) = some name)
    (hother : ∀ slot, slot.InRange → slot ≠ .forward kind name → slot ≠ .reverse kind (counter + 1) →
      v' slot = v slot) : Tables v' (counter + 1) := by
  -- the next short id is past the counter: no name had it before
  have hrev : ∀ k s n, s ≤ u64Max → v' (.reverse k s) = some n →
      (k = kind ∧ s = counter + 1 ∧ n = name) ∨ (s ≠ counter + 1 ∧ v (.reverse k s) = some n) := by
    intro k s n hs hv
    by_cases heq : k = kind ∧ s = counter + 1
    · obtain ⟨rfl, rfl⟩ := heq
      rw [hr, Option.some.injEq] at hv
      exact .inl ⟨rfl, rfl, hv.symm⟩
    · rw [hother (.reverse k s) hs (by simp) (by simpa using heq)] at hv
      have hle := (h.reverse k s n hs hv).2.1
      exact .inr ⟨by omega, hv⟩
  refine ⟨hnext, fun k n bytes hv => ?_, fun k s n hs hv => ?_, fun s n n' hs hv hv' => ?_⟩
  · by_cases heq : k = kind ∧ n = name
    · obtain ⟨rfl, rfl⟩ := heq
      rw [hf, Option.some.injEq] at hv
      exact ⟨counter + 1, hv.symm, by omega, Nat.le_refl _, hr⟩
    · rw [hother (.forward k n) trivial (by simpa using heq) (by simp)] at hv
      obtain ⟨s, hb, h1, hle, hrv⟩ := h.forward k n bytes hv
      refine ⟨s, hb, h1, by omega, ?_⟩
      rw [hother (.reverse k s) (by show s ≤ u64Max; omega) (by simp) (by simp; omega), hrv]
  · rcases hrev k s n hs hv with ⟨rfl, rfl, rfl⟩ | ⟨-, hv⟩
    · exact ⟨by omega, Nat.le_refl _, hf⟩
    · obtain ⟨h1, hle, hfv⟩ := h.reverse k s n hs hv
      refine ⟨h1, by omega, ?_⟩
      rw [hother (.forward k n) trivial ?_ (by simp), hfv]
      rintro heq
      rw [heq, hnew] at hfv
      cases hfv
  · rcases hrev .event s n hs hv with ⟨hk, hse, -⟩ | ⟨hne, hv⟩
    · rcases hrev .stateKey s n' hs hv' with ⟨hk', -, -⟩ | ⟨hne, -⟩
      · rw [← hk] at hk'
        cases hk'
      · exact hne hse
    · rcases hrev .stateKey s n' hs hv' with ⟨-, hse, -⟩ | ⟨-, hv'⟩
      · exact hne hse
      · exact h.apart s n n' hs hv hv'

/-! ## Codecs -/

theorem splitPrefix_withPrefix {s : Nat} (hs : s ≤ u64Max) (name : Bytes) :
    splitPrefix (withPrefix s name) = .ok (s, name) := by
  have hlen := length_toBeBytes 8 s
  have hlt : s < 256 ^ 8 := by
    unfold u64Max at hs
    omega
  unfold splitPrefix withPrefix
  rw [if_neg (by simp), List.take_left' hlen, List.drop_left' hlen, ofBeBytes_toBeBytes, Nat.mod_eq_of_lt hlt]

theorem withPrefix_ne_nil (s : Nat) (name : Bytes) : withPrefix s name ≠ [] := by
  intro h
  have hlen := congrArg List.length h
  simp [withPrefix] at hlen

theorem withPrefix_inj {s s' : Nat} (hs : s ≤ u64Max) (hs' : s' ≤ u64Max) {name name' : Bytes}
    (h : withPrefix s name = withPrefix s' name') : s = s' ∧ name = name' := by
  have heq := congrArg splitPrefix h
  rw [splitPrefix_withPrefix hs, splitPrefix_withPrefix hs', Except.ok.injEq, Prod.mk.injEq] at heq
  exact heq

theorem decodeStateKey_encodeStateKey {eventType stateKey : String} {encoded : Bytes}
    (h : encodeStateKey eventType stateKey = .ok encoded) : decodeStateKey encoded = .ok (eventType, stateKey) := by
  unfold encodeStateKey at h
  simp only at h
  split at h
  · cases h
  · split at h
    · cases h
    · rename_i ht hk
      cases h
      have hlen : ∀ n, ¬ u32Max < n → ofBeBytes (toBeBytes 4 n) = n := by
        intro n hn
        rw [ofBeBytes_toBeBytes, Nat.mod_eq_of_lt]
        unfold u32Max at hn
        omega
      unfold decodeStateKey
      simp only [List.append_assoc]
      simp only [splitAt_append (show ([1] : Bytes).length = 1 from rfl), bind, Option.bind_some, ne_eq,
        not_true_eq_false, if_false]
      rw [splitAt_append (by simp)]
      simp only [Option.bind_some, List.reverse_reverse, hlen _ ht]
      rw [splitAt_append rfl]
      simp only [Option.bind_some]
      rw [splitAt_append (by simp)]
      simp [hlen _ hk]

theorem encodeStateKey_ne_nil {eventType stateKey : String} {encoded : Bytes}
    (h : encodeStateKey eventType stateKey = .ok encoded) : encoded ≠ [] := by
  rintro rfl
  have hdecode := decodeStateKey_encodeStateKey h
  cases hdecode

/-! ## One call -/

section
variable {Id : Type} [DecidableEq Id] {E : Engine Id} {ids : Ids Id} {db : E.Db} {counter : Nat}

def tablesOf (ids : Ids Id) (db : E.Db) (slot : Slot) : Option Bytes := E.get db (slot.record ids)

def stagedTables (ids : Ids Id) (db : E.Db) (tx : Transaction Id) (slot : Slot) : Option Bytes :=
  tx.view (E.get db) (slot.record ids)

theorem stagedTables_put (ids : Ids Id) (db : E.Db) (tx : Transaction Id) {slot slot' : Slot} (hs : slot.InRange)
    (hs' : slot'.InRange) (data : Bytes) : stagedTables ids db (tx.put (slot.record ids) data) slot' =
      if slot' = slot then some data else stagedTables ids db tx slot' := by
  rw [stagedTables, Transaction.view_put]
  by_cases h : slot' = slot
  · rw [if_pos (by rw [h]), if_pos h]
  · rw [if_neg (fun heq => h (Slot.record_inj hs' hs heq)), if_neg h]
    rfl

def stagePair (ids : Ids Id) (tx : Transaction Id) (kind : Kind) (next : Nat) (name : Bytes) : Transaction Id :=
  (tx.put ((Slot.forward kind name).record ids) (withPrefix next name)).put
    ((Slot.reverse kind next).record ids) name

theorem stagedTables_pair {tx : Transaction Id} {kind : Kind} {next : Nat} {name : Bytes} (hnext : next ≤ u64Max)
    {slot : Slot} (hslot : slot.InRange) : stagedTables ids db (stagePair ids tx kind next name) slot =
      if slot = .reverse kind next then some name else if slot = .forward kind name then some (withPrefix next name)
      else stagedTables ids db tx slot := by
  rw [stagePair, stagedTables_put ids db _ (Slot.inRange_reverse kind hnext) hslot,
    stagedTables_put ids db _ (Slot.inRange_forward kind name) hslot]

theorem Tables.stagePair {tx : Transaction Id} {kind : Kind} {name : Bytes}
    (h : Tables (stagedTables ids db tx) counter) (hnext : counter < u64Max)
    (hnew : stagedTables ids db tx (.forward kind name) = none) :
    Tables (stagedTables ids db (ShortIds.stagePair ids tx kind (counter + 1) name)) (counter + 1) := by
  refine h.assign hnext hnew ?_ ?_ fun slot hslot hf hr => ?_
  · rw [stagedTables_pair hnext (Slot.inRange_forward kind name), if_neg (by simp), if_pos rfl]
  · rw [stagedTables_pair hnext (Slot.inRange_reverse kind hnext), if_pos rfl]
  · rw [stagedTables_pair hnext hslot, if_neg hr, if_neg hf]

def At (db : E.Db) (counter : Nat) (a : Adapter E) : Prop := a.store.db = db ∧ a.counter = counter

theorem onStore_triple {A : Type} {p : Access E A} {Q : A → Store.World E → Prop}
    (h : Call.Triple (fun w => w.db = db) p Q fun w => w.db = db) :
    Call.Triple (At db counter) (onStore p) (fun r a => Q r a.store ∧ a.counter = counter) (At db counter) :=
  Call.Triple.zoom (l := storePart) (F := fun a => a.counter = counter) h fun _ _ hc => hc

theorem read_triple (r : Record Id) :
    Call.Triple (At db counter) (read E r) (fun v a => At db counter a ∧ v = E.get db r) (At db counter) :=
  (onStore_triple (ask_triple fun db => E.get db r)).mono (fun _ h => h) (fun _ _ h => ⟨⟨h.1.1, h.2⟩, h.1.2⟩)
    fun _ h => h

theorem onStore_check_triple {A : Type} (r : Except StorageError A) :
    Call.Triple (At db counter) (onStore (check r) : Use E A) (fun a s => At db counter s ∧ r = .ok a)
      (At db counter) :=
  (onStore_triple (check_triple r)).mono (fun _ h => h) (fun _ _ h => ⟨⟨h.1.1, h.2⟩, h.1.2⟩) fun _ h => h

/-- A batch on its way: its transaction shows consistent tables, which have all that was
resolved and all that was there before. -/
structure Batch.Sound (ids : Ids Id) (db : E.Db) (counter : Nat) (b : Batch Id) : Prop where
  tables : Tables (stagedTables ids db b.tx) b.next
  filled : b.tx.Filled
  resolved : ∀ id s, b.resolved.lookup id = some s → s ≤ b.next ∧
    stagedTables ids db b.tx (.forward .event id.1) = some (withPrefix s id.1)
  unresolved : ∀ id : EventId, id ∉ b.resolved →
    stagedTables ids db b.tx (.forward .event id.1) = tablesOf ids db (.forward .event id.1)
  kept : ∀ kind name bytes, tablesOf ids db (.forward kind name) = some bytes →
    stagedTables ids db b.tx (.forward kind name) = some bytes
  stateKeys : ∀ s ≤ u64Max, stagedTables ids db b.tx (.reverse .stateKey s) = tablesOf ids db (.reverse .stateKey s)
  idle : b.allocated = false → b.next = counter ∧ b.tx = .begin

variable {b b' : Batch Id} {id : EventId}

theorem Batch.Sound.start (h : Tables (tablesOf ids db) counter) :
    Sound ids db counter ⟨∅, counter, .begin, false⟩ where
  tables := h
  filled := Transaction.filled_begin
  resolved _ _ hl := by simp at hl
  unresolved _ _ := rfl
  kept _ _ _ hv := hv
  stateKeys _ _ := rfl
  idle _ := ⟨rfl, rfl⟩

theorem Batch.Sound.assign (h : Sound ids db counter b) (hid : id ∉ b.resolved)
    (hnew : tablesOf ids db (.forward .event id.1) = none) (hb : b.assign ids id = .ok b') :
    Sound ids db counter b' ∧ ∀ id', id' ∈ b'.resolved ↔ id' = id ∨ id' ∈ b.resolved := by
  unfold Batch.assign at hb
  split at hb
  · cases hb
  · rename_i hlt
    cases hb
    have hnext : b.next < u64Max := by omega
    have hnone : stagedTables ids db b.tx (.forward .event id.1) = none := by rw [h.unresolved id hid, hnew]
    -- the forward records of the transaction with the new pair
    have hview : ∀ kind name, stagedTables ids db (stagePair ids b.tx .event (b.next + 1) id.1)
      (.forward kind name) =
        if kind = .event ∧ name = id.1 then some (withPrefix (b.next + 1) id.1)
        else stagedTables ids db b.tx (.forward kind name) := by
      intro kind name
      rw [stagedTables_pair hnext (Slot.inRange_forward kind name), if_neg (by simp)]
      simp only [Slot.forward.injEq]
    refine ⟨⟨h.tables.stagePair hnext hnone, (h.filled.put _ (withPrefix_ne_nil _ _)).put _
      id.2, fun id' s hl => ?_,
      fun id' hid' => ?_, fun kind name bytes hv => ?_, fun s hs => ?_, fun hfalse => by cases hfalse⟩,
      fun id' => AList.mem_insert _⟩
    · show s ≤ b.next + 1 ∧ stagedTables ids db (stagePair ids b.tx .event (b.next + 1) id.1) _ = _
      rw [hview]
      by_cases heq : id' = id
      · subst heq
        rw [AList.lookup_insert, Option.some.injEq] at hl
        subst hl
        exact ⟨Nat.le_refl _, if_pos ⟨rfl, rfl⟩⟩
      · rw [AList.lookup_insert_ne heq] at hl
        obtain ⟨hle, hv⟩ := h.resolved id' s hl
        refine ⟨by omega, ?_⟩
        rw [if_neg (fun hn => heq (Subtype.ext hn.2)), hv]
    · show stagedTables ids db (stagePair ids b.tx .event (b.next + 1) id.1) _ = _
      rw [AList.mem_insert, not_or] at hid'
      rw [hview, if_neg (fun hn => hid'.1 (Subtype.ext hn.2)), h.unresolved id' hid'.2]
    · show stagedTables ids db (stagePair ids b.tx .event (b.next + 1) id.1) _ = _
      rw [hview, if_neg ?_, h.kept kind name bytes hv]
      rintro ⟨rfl, rfl⟩
      rw [hnew] at hv
      cases hv
    · show stagedTables ids db (stagePair ids b.tx .event (b.next + 1) id.1) _ = _
      rw [stagedTables_pair hnext (Slot.inRange_reverse .stateKey hs), if_neg (by simp), if_neg (by simp),
        h.stateKeys s hs]

theorem Batch.Sound.resolve (h : Sound ids db counter b) (hid : id ∉ b.resolved)
    (hb : b.resolve ids id (tablesOf ids db (.forward .event id.1)) = .ok b') :
    Sound ids db counter b' ∧ ∀ id', id' ∈ b'.resolved ↔ id' = id ∨ id' ∈ b.resolved := by
  cases hv : tablesOf ids db (.forward .event id.1) with
  | none =>
    rw [hv] at hb
    exact h.assign hid hv hb
  | some bytes =>
    have hstaged := h.kept .event id.1 bytes hv
    obtain ⟨s, rfl, -, hle, -⟩ := h.tables.forward .event id.1 bytes hstaged
    have hs : s ≤ u64Max := hle.trans h.tables.bound
    simp only [hv, Batch.resolve, splitPrefix_withPrefix hs, bind, Except.bind, ne_eq, not_true_eq_false, if_false,
      Except.ok.injEq] at hb
    subst hb
    refine ⟨⟨h.tables, h.filled, fun id' s' hl => ?_, fun id' hid' => ?_, h.kept, h.stateKeys, h.idle⟩,
      fun id' => AList.mem_insert _⟩
    · by_cases heq : id' = id
      · subst heq
        rw [AList.lookup_insert, Option.some.injEq] at hl
        subst hl
        exact ⟨hle, hstaged⟩
      · rw [AList.lookup_insert_ne heq] at hl
        exact h.resolved id' s' hl
    · rw [AList.mem_insert, not_or] at hid'
      exact h.unresolved id' hid'.2

theorem allocateEvent_triple (h : b.Sound ids db counter) (id : EventId) :
    Call.Triple (At db counter) (allocateEvent ids b id : Use E (Batch Id))
      (fun b' a => At db counter a ∧ b'.Sound ids db counter ∧ ∀ id', id' ∈ b'.resolved ↔
        id' = id ∨ id' ∈ b.resolved)
      (At db counter) := by
  unfold allocateEvent
  split
  · rename_i hid
    refine Call.Triple.pure _ fun a ha => ⟨ha, h, fun id' => ?_⟩
    constructor
    · exact .inr
    · rintro (rfl | hmem)
      · exact hid
      · exact hmem
  · rename_i hid
    refine (read_triple _).bind fun bytes => .assume fun hbytes => ?_
    refine (onStore_check_triple _).mono (fun _ ha => ha) (fun b' a ha => ⟨ha.1, ?_⟩) fun _ ha => ha
    exact h.resolve hid (by rw [← ha.2, hbytes]; rfl)

theorem allocateAll_triple : ∀ (es : List EventId) {b : Batch Id}, b.Sound ids db counter →
    Call.Triple (At db counter) (es.foldlM (allocateEvent ids) b : Use E (Batch Id))
      (fun b' a => At db counter a ∧ b'.Sound ids db counter ∧ ∀ id, id ∈ b'.resolved ↔ id ∈ es ∨ id ∈ b.resolved)
      (At db counter)
  | [], b, h => Call.Triple.pure _ fun a ha => ⟨ha, h, by simp⟩
  | e :: es, b, h => by
    rw [List.foldlM_cons]
    refine (allocateEvent_triple h e).bind fun b₁ => .assume fun hb₁ => ?_
    refine (allocateAll_triple es hb₁.1).mono (fun _ ha => ha) (fun b' a ha => ⟨ha.1, ha.2.1, fun id => ?_⟩)
      fun _ ha => ha
    rw [ha.2.2 id, hb₁.2 id, List.mem_cons]
    tauto

theorem advance_triple {tx : Transaction Id} (n : Nat) :
    Call.Triple (fun a : Adapter E => E.commit db tx = .ok a.store.db ∧ a.counter = counter)
      (Call.modify (fun a => { a with counter := n }) : Use E Unit)
      (fun _ a => a.counter = n ∧ E.commit db tx = .ok a.store.db) (At db counter) :=
  Call.Triple.modify fun _ ha => ⟨rfl, ha.1⟩

theorem allocateEvents_triple (h : Tables (tablesOf ids db) counter) (es : List EventId) :
    Call.Triple (At db counter) (allocateEvents ids es : Use E (List Nat))
      (fun shorts a => ∃ b : Batch Id, b.Sound ids db counter ∧ (∀ id, id ∈ b.resolved ↔ id ∈ es) ∧
        shorts = es.map (fun id => (b.resolved.lookup id).getD 0) ∧
        ((b.allocated = false ∧ At db counter a) ∨
          (a.counter = b.next ∧ E.commit db (putCounter ids b.tx b.next) = .ok a.store.db)))
      (At db counter) := by
  unfold allocateEvents
  refine Call.Triple.read_bind (fun a ha => ha.2) ?_
  refine (allocateAll_triple es (Batch.Sound.start h)).bind fun b => .assume fun hb => ?_
  have hmem : ∀ id, id ∈ b.resolved ↔ id ∈ es := by
    intro id
    rw [hb.2 id]
    simp
  cases halloc : b.allocated with
  | false => exact Call.Triple.pure _ fun a ha => ⟨b, hb.1, hmem, rfl, .inl ⟨halloc, ha⟩⟩
  | true =>
    refine (onStore_triple (commit_triple _)).bind fun _ => ?_
    refine (advance_triple b.next).bind fun _ => ?_
    exact Call.Triple.pure _ fun a ha => ⟨b, hb.1, hmem, rfl, .inr ha⟩

theorem allocateStateKey_triple (h : Tables (tablesOf ids db) counter) (eventType stateKey : String) :
    Call.Triple (At db counter) (allocateStateKey ids eventType stateKey : Use E Nat)
      (fun s a => ∃ encoded, encodeStateKey eventType stateKey = .ok encoded ∧
        ((tablesOf ids db (.forward .stateKey encoded) = some (withPrefix s encoded) ∧
          s ≤ counter ∧ At db counter a) ∨
          (tablesOf ids db (.forward .stateKey encoded) = none ∧ counter < u64Max ∧ s = counter + 1 ∧
            a.counter = counter + 1 ∧ E.commit db (stateKeyTransaction ids (counter + 1) encoded) =
              .ok a.store.db)))
      (At db counter) := by
  unfold allocateStateKey
  refine (onStore_check_triple _).bind fun encoded => .assume fun hencoded => ?_
  refine Call.Triple.read_bind (fun a ha => ha.2) ?_
  refine (read_triple _).bind fun bytes => .assume fun hbytes => ?_
  have hslot : tablesOf ids db (.forward .stateKey encoded) = bytes := hbytes.symm
  cases bytes with
  | some bytes =>
    obtain ⟨s, rfl, -, hle, -⟩ := h.forward .stateKey encoded bytes hslot
    refine (onStore_check_triple _).bind fun stored => .assume fun hstored => ?_
    rw [splitPrefix_withPrefix (hle.trans h.bound), Except.ok.injEq] at hstored
    subst hstored
    simp only [ne_eq, not_true_eq_false, if_false]
    exact Call.Triple.pure _ fun a ha => ⟨encoded, hencoded, .inl ⟨hslot, hle, ha⟩⟩
  | none =>
    simp only
    split
    · exact Call.Triple.throw _ fun a ha => ha
    · rename_i hlt
      refine (onStore_triple (commit_triple _)).bind fun _ => ?_
      refine (advance_triple (counter + 1)).bind fun _ => ?_
      exact Call.Triple.pure _ fun a ha => ⟨encoded, hencoded, .inr ⟨hslot, by omega, rfl, ha.1, ha.2⟩⟩

theorem reopen_triple :
    Call.Triple (At db counter) (reopen ids : Use E Unit)
      (fun _ a => a.store.db = db ∧ decodeCounter (tablesOf ids db .counter) = .ok a.counter) (At db counter) := by
  unfold reopen
  refine (read_triple _).bind fun bytes => .assume fun hbytes => ?_
  refine (onStore_check_triple _).bind fun n => .assume fun hn => ?_
  exact Call.Triple.modify fun a ha => ⟨ha.1, by rw [← hn, hbytes]; rfl⟩

/-! ## Whole runs -/

/-- What holds of an open adapter between calls. -/
structure Consistent (ids : Ids Id) (a : Adapter E) : Prop where
  tables : Tables (tablesOf ids a.store.db) a.counter
  counter : decodeCounter (tablesOf ids a.store.db .counter) = .ok a.counter
  encoded : ∀ s ≤ u64Max, ∀ name, tablesOf ids a.store.db (.reverse .stateKey s) = some name →
    ∃ eventType stateKey, encodeStateKey eventType stateKey = .ok name

/-- The names that had short ids keep them. -/
def Extends (ids : Ids Id) (db db' : E.Db) : Prop :=
  ∀ kind name bytes, tablesOf ids db (.forward kind name) = some bytes →
    tablesOf ids db' (.forward kind name) = some bytes

variable {a a' : Adapter E}

theorem Consistent.of_eq (h : Consistent ids a) (hdb : a'.store.db = a.store.db)
    (hcounter : a'.counter = a.counter) :
    Consistent ids a' ∧ Extends ids a.store.db a'.store.db := by
  rw [hdb]
  refine ⟨⟨?_, ?_, ?_⟩, fun _ _ _ hv => hv⟩
  · rw [hdb, hcounter]
    exact h.tables
  · rw [hdb, hcounter]
    exact h.counter
  · rw [hdb]
    exact h.encoded

theorem tablesOf_commit {tx : Transaction Id} {n : Nat} {db' : E.Db}
    (h : E.commit db (putCounter ids tx n) = .ok db')
    (hfilled : tx.Filled) {slot : Slot} (hslot : slot.InRange) :
    tablesOf ids db' slot = if slot = .counter then some (toBeBytes 8 n) else stagedTables ids db tx slot := by
  have hne : toBeBytes 8 n ≠ [] := by
    intro hnil
    have hlen := congrArg List.length hnil
    simp at hlen
  rw [tablesOf, E.get_of_commit h (hfilled.put _ hne)]
  exact stagedTables_put ids db tx Slot.inRange_counter hslot _

theorem decodeCounter_toBeBytes {n : Nat} (hn : n ≤ u64Max) : decodeCounter (some (toBeBytes 8 n)) = .ok n := by
  have hlt : n < 256 ^ 8 := by
    unfold u64Max at hn
    omega
  simp only [decodeCounter, length_toBeBytes, if_true, ofBeBytes_toBeBytes, Nat.mod_eq_of_lt hlt]

theorem Consistent.of_commit {tx : Transaction Id} {n : Nat} (hstaged : Tables (stagedTables ids db tx) n)
    (hfilled : tx.Filled) (hcounter : a'.counter = n) (h : E.commit db (putCounter ids tx n) = .ok a'.store.db)
    (hencoded : ∀ s ≤ u64Max, ∀ name, stagedTables ids db tx (.reverse .stateKey s) = some name →
      ∃ eventType stateKey, encodeStateKey eventType stateKey = .ok name) : Consistent ids a' := by
  have hforward : ∀ kind name, tablesOf ids a'.store.db (.forward kind name) =
      stagedTables ids db tx (.forward kind name) := by
    intro kind name
    rw [tablesOf_commit h hfilled (Slot.inRange_forward kind name), if_neg (by simp)]
  have hreverse : ∀ kind s, s ≤ u64Max → tablesOf ids a'.store.db (.reverse kind s) =
      stagedTables ids db tx (.reverse kind s) := by
    intro kind s hs
    rw [tablesOf_commit h hfilled (Slot.inRange_reverse kind hs), if_neg (by simp)]
  refine ⟨⟨hcounter ▸ hstaged.bound, fun kind name bytes hv => ?_, fun kind s name hs hv => ?_,
    fun s name name' hs hv => ?_⟩, ?_, fun s hs name hv => ?_⟩
  · rw [hforward] at hv
    obtain ⟨s, hb, h1, hle, hr⟩ := hstaged.forward kind name bytes hv
    exact ⟨s, hb, h1, hcounter ▸ hle, by rw [hreverse kind s (hle.trans hstaged.bound), hr]⟩
  · rw [hreverse kind s hs] at hv
    rw [hforward, hcounter]
    exact hstaged.reverse kind s name hs hv
  · rw [hreverse .event s hs] at hv
    rw [hreverse .stateKey s hs]
    exact hstaged.apart s name name' hs hv
  · rw [tablesOf_commit h hfilled Slot.inRange_counter, if_pos rfl, hcounter,
      decodeCounter_toBeBytes hstaged.bound]
  · rw [hreverse .stateKey s hs] at hv
    exact hencoded s hs name hv

theorem Consistent.allocateEvents (h : Consistent ids a) {es : List EventId} {shorts : List Nat}
    (hcall : (ShortIds.allocateEvents ids es : Use E (List Nat)).exec a = (.ok shorts, a')) :
    Consistent ids a' ∧ Extends ids a.store.db a'.store.db ∧ ∃ g : EventId → Nat, shorts = es.map g ∧
      ∀ id ∈ es, g id ≤ u64Max ∧ tablesOf ids a'.store.db (.forward .event id.1) =
        some (withPrefix (g id) id.1) := by
  obtain ⟨b, hb, hmem, hshorts, hend⟩ := (allocateEvents_triple h.tables es a ⟨rfl, rfl⟩).1 shorts a' hcall
  have hresolved : ∀ id ∈ es, (b.resolved.lookup id).getD 0 ≤ u64Max ∧
      stagedTables ids a.store.db b.tx (.forward .event id.1) =
        some (withPrefix ((b.resolved.lookup id).getD 0) id.1) := by
    intro id hid
    obtain ⟨s, hs⟩ := Option.isSome_iff_exists.mp (AList.lookup_isSome.mpr ((hmem id).mpr hid))
    obtain ⟨hle, hv⟩ := hb.resolved id s hs
    rw [hs]
    exact ⟨hle.trans hb.tables.bound, hv⟩
  -- without new names nothing is committed
  rcases hend with ⟨hidle, hdb, hcounter⟩ | ⟨hcounter, hcommit⟩
  · obtain ⟨-, htx⟩ := hb.idle hidle
    rw [htx] at hresolved
    obtain ⟨hsame, hext⟩ := h.of_eq hdb hcounter
    refine ⟨hsame, hext, _, hshorts, ?_⟩
    rw [hdb]
    exact hresolved
  · have hforward : ∀ kind name, tablesOf ids a'.store.db (.forward kind name) =
        stagedTables ids a.store.db b.tx (.forward kind name) := by
      intro kind name
      rw [tablesOf_commit hcommit hb.filled (Slot.inRange_forward kind name), if_neg (by simp)]
    refine ⟨.of_commit hb.tables hb.filled hcounter hcommit fun s hs name hv => ?_, fun kind name bytes hv => ?_, _,
      hshorts, fun id hid => ?_⟩
    · rw [hb.stateKeys s hs] at hv
      exact h.encoded s hs name hv
    · rw [hforward, hb.kept kind name bytes hv]
    · rw [hforward]
      exact hresolved id hid

theorem Consistent.allocateStateKey (h : Consistent ids a) {eventType stateKey : String} {s : Nat}
    (hcall : (ShortIds.allocateStateKey ids eventType stateKey : Use E Nat).exec a = (.ok s, a')) :
    Consistent ids a' ∧ Extends ids a.store.db a'.store.db ∧
      ∃ encoded, encodeStateKey eventType stateKey = .ok encoded ∧ s ≤ u64Max ∧
        tablesOf ids a'.store.db (.forward .stateKey encoded) = some (withPrefix s encoded) := by
  obtain ⟨encoded, hencoded, ⟨hv, hle, hdb, hcounter⟩ | ⟨hv, hlt, rfl, hcounter, hcommit⟩⟩ :=
    (allocateStateKey_triple h.tables eventType stateKey a ⟨rfl, rfl⟩).1 s a' hcall
  · obtain ⟨hsame, hext⟩ := h.of_eq hdb hcounter
    refine ⟨hsame, hext, encoded, hencoded, hle.trans h.tables.bound, ?_⟩
    rw [hdb]
    exact hv
  · have hcommit : E.commit a.store.db (putCounter ids (stagePair ids .begin .stateKey (a.counter + 1) encoded)
        (a.counter + 1)) = .ok a'.store.db := hcommit
    have hne := encodeStateKey_ne_nil hencoded
    have hfilled : (stagePair ids .begin .stateKey (a.counter + 1) encoded).Filled :=
      (Transaction.filled_begin.put _ (withPrefix_ne_nil _ _)).put _ hne
    have hforward : ∀ kind name, tablesOf ids a'.store.db (.forward kind name) =
        if Slot.forward kind name = .forward .stateKey encoded then some (withPrefix (a.counter + 1) encoded)
        else tablesOf ids a.store.db (.forward kind name) := by
      intro kind name
      rw [tablesOf_commit hcommit hfilled (Slot.inRange_forward kind name), if_neg (by simp),
        stagedTables_pair hlt (Slot.inRange_forward kind name), if_neg (by simp)]
      rfl
    have hstart : Tables (stagedTables ids a.store.db .begin) a.counter := h.tables
    refine ⟨.of_commit (hstart.stagePair hlt hv) hfilled hcounter hcommit fun s hs name hname => ?_,
      fun kind name bytes hb => ?_, encoded, hencoded, hlt, ?_⟩
    · rw [stagedTables_pair hlt (Slot.inRange_reverse .stateKey hs)] at hname
      split at hname
      · cases hname
        exact ⟨eventType, stateKey, hencoded⟩
      · rw [if_neg (by simp)] at hname
        exact h.encoded s hs name hname
    · rw [hforward, if_neg ?_, hb]
      intro heq
      rw [heq, hv] at hb
      cases hb
    · rw [hforward, if_pos rfl]

theorem Consistent.reopen (h : Consistent ids a)
    (hcall : (ShortIds.reopen ids : Use E Unit).exec a = (.ok (), a')) :
    Consistent ids a' ∧ Extends ids a.store.db a'.store.db := by
  obtain ⟨hdb, hcounter⟩ := (reopen_triple a ⟨rfl, rfl⟩).1 () a' hcall
  rw [h.counter, Except.ok.injEq] at hcounter
  exact h.of_eq hdb hcounter.symm

inductive Op where
  | allocateEvents (eventIds : List EventId)
  | allocateStateKey (eventType stateKey : String)
  | reopen

def Op.exec (ids : Ids Id) (op : Op) (a : Adapter E) : Except StorageError Unit × Adapter E :=
  match op with
  | .allocateEvents eventIds =>
    (((ShortIds.allocateEvents ids eventIds).exec a).1.map fun _ => (),
      ((ShortIds.allocateEvents ids eventIds).exec a).2)
  | .allocateStateKey eventType stateKey =>
    (((ShortIds.allocateStateKey ids eventType stateKey).exec a).1.map fun _ => (),
      ((ShortIds.allocateStateKey ids eventType stateKey).exec a).2)
  | .reopen => (ShortIds.reopen ids).exec a

def step (ids : Ids Id) (op : Op) (a : Adapter E) : Option (Adapter E) := some (op.exec ids a).2

theorem exec_error (h : Tables (tablesOf ids a.store.db) a.counter) {op : Op} {e : StorageError}
    (hcall : op.exec ids a = (.error e, a')) : a'.store.db = a.store.db ∧ a'.counter = a.counter := by
  cases op with
  | allocateEvents es =>
    rcases hr : (ShortIds.allocateEvents ids es).exec a with ⟨r, a₁⟩
    simp only [Op.exec, hr, Prod.mk.injEq] at hcall
    obtain ⟨he, rfl⟩ := hcall
    cases r with
    | ok shorts => cases he
    | error e' => exact (allocateEvents_triple h es a ⟨rfl, rfl⟩).2 e' _ hr
  | allocateStateKey eventType stateKey =>
    rcases hr : (ShortIds.allocateStateKey ids eventType stateKey).exec a with ⟨r, a₁⟩
    simp only [Op.exec, hr, Prod.mk.injEq] at hcall
    obtain ⟨he, rfl⟩ := hcall
    cases r with
    | ok s => cases he
    | error e' => exact (allocateStateKey_triple h eventType stateKey a ⟨rfl, rfl⟩).2 e' _ hr
  | reopen => exact (reopen_triple a ⟨rfl, rfl⟩).2 e _ hcall

theorem exec_consistent (h : Consistent ids a) (op : Op) :
    Consistent ids (op.exec ids a).2 ∧ Extends ids a.store.db (op.exec ids a).2.store.db := by
  rcases hr : op.exec ids a with ⟨r, a'⟩
  cases r with
  | error e =>
    obtain ⟨hdb, hcounter⟩ := exec_error h.tables hr
    exact h.of_eq hdb hcounter
  | ok _ =>
    cases op with
    | allocateEvents es =>
      rcases hc : (ShortIds.allocateEvents ids es).exec a with ⟨r, a₁⟩
      simp only [Op.exec, hc, Prod.mk.injEq] at hr
      obtain ⟨he, rfl⟩ := hr
      cases r with
      | ok shorts => exact ⟨(h.allocateEvents hc).1, (h.allocateEvents hc).2.1⟩
      | error e' => cases he
    | allocateStateKey eventType stateKey =>
      rcases hc : (ShortIds.allocateStateKey ids eventType stateKey).exec a with ⟨r, a₁⟩
      simp only [Op.exec, hc, Prod.mk.injEq] at hr
      obtain ⟨he, rfl⟩ := hr
      cases r with
      | ok s => exact ⟨(h.allocateStateKey hc).1, (h.allocateStateKey hc).2.1⟩
      | error e' => cases he
    | reopen => exact h.reopen hr

/-! ## What is read -/

/-- What `get_event` answers. -/
def eventShort (ids : Ids Id) (db : E.Db) (id : Bytes) : Except StorageError (Option Nat) :=
  decodeForward id (tablesOf ids db (.forward .event id))

/-- What `get_event_id` answers. -/
def shortEvent (ids : Ids Id) (db : E.Db) (s : Nat) : Option Bytes := tablesOf ids db (.reverse .event s)

/-- What `get_state_key` answers. -/
def stateKeyShort (ids : Ids Id) (db : E.Db) (eventType stateKey : String) : Except StorageError (Option Nat) := do
  let encoded ← encodeStateKey eventType stateKey
  decodeForward encoded (tablesOf ids db (.forward .stateKey encoded))

/-- What `get_state_key_from_short` answers. -/
def shortStateKey (ids : Ids Id) (db : E.Db) (s : Nat) : Except StorageError (Option (String × String)) :=
  (tablesOf ids db (.reverse .stateKey s)).elim (.ok none) fun bytes => (decodeStateKey bytes).map some

section
variable (ids : Ids Id) (a : Adapter E) (hfaults : ∀ n, a.store.faults n = none)

end

theorem decodeForward_eq_some (h : Tables (tablesOf ids db) counter) {kind : Kind} {name : Bytes} {s : Nat} :
    decodeForward name (tablesOf ids db (.forward kind name)) = .ok (some s) ↔
      s ≤ u64Max ∧ tablesOf ids db (.forward kind name) = some (withPrefix s name) := by
  cases hv : tablesOf ids db (.forward kind name) with
  | none => simp [decodeForward]
  | some bytes =>
    obtain ⟨s', rfl, -, hle, -⟩ := h.forward kind name bytes hv
    have hs' : s' ≤ u64Max := hle.trans h.bound
    simp only [decodeForward, splitPrefix_withPrefix hs', Except.map, if_true, Except.ok.injEq, Option.some.injEq]
    constructor
    · rintro rfl
      exact ⟨hs', rfl⟩
    · rintro ⟨hs, heq⟩
      exact (withPrefix_inj hs' hs heq).1

theorem stateKeyShort_eq_some (h : Tables (tablesOf ids db) counter) {eventType stateKey : String} {s : Nat} :
    stateKeyShort ids db eventType stateKey = .ok (some s) ↔
      ∃ encoded, encodeStateKey eventType stateKey = .ok encoded ∧ s ≤ u64Max ∧
        tablesOf ids db (.forward .stateKey encoded) = some (withPrefix s encoded) := by
  unfold stateKeyShort
  cases hencoded : encodeStateKey eventType stateKey with
  | error e => simp [bind, Except.bind]
  | ok encoded =>
    simp only [bind, Except.bind, decodeForward_eq_some h, Except.ok.injEq, exists_eq_left']

/-- Both pairs of maps are inverse, their short ids are counted, and no short id is that
of an event and of a state key. -/
structure Inverse (ids : Ids Id) (a : Adapter E) : Prop where
  events : ∀ id s, s ≤ u64Max →
    (eventShort ids a.store.db id = .ok (some s) ↔ shortEvent ids a.store.db s = some id)
  stateKeys : ∀ eventType stateKey s, s ≤ u64Max →
    (stateKeyShort ids a.store.db eventType stateKey = .ok (some s) ↔
      shortStateKey ids a.store.db s = .ok (some (eventType, stateKey)))
  counter : decodeCounter (tablesOf ids a.store.db .counter) = .ok a.counter
  eventRange : ∀ id s, eventShort ids a.store.db id = .ok (some s) → 1 ≤ s ∧ s ≤ a.counter
  stateKeyRange : ∀ eventType stateKey s, stateKeyShort ids a.store.db eventType stateKey = .ok (some s) →
    1 ≤ s ∧ s ≤ a.counter
  apart : ∀ id eventType stateKey s s', eventShort ids a.store.db id = .ok (some s) →
    stateKeyShort ids a.store.db eventType stateKey = .ok (some s') → s ≠ s'

theorem Consistent.inverse (h : Consistent ids a) : Inverse ids a := by
  -- a forward record gives the reverse one
  have hforward : ∀ kind name s, s ≤ u64Max → tablesOf ids a.store.db (.forward kind name) =
    some (withPrefix s name) →
      1 ≤ s ∧ s ≤ a.counter ∧ tablesOf ids a.store.db (.reverse kind s) = some name := by
    intro kind name s hs hv
    obtain ⟨s', heq, h1, hle, hr⟩ := h.tables.forward kind name _ hv
    obtain rfl := (withPrefix_inj hs (hle.trans h.tables.bound) heq).1
    exact ⟨h1, hle, hr⟩
  refine ⟨fun id s hs => ?_, fun t k s hs => ?_, h.counter, fun id s hv => ?_, fun t k s hv => ?_,
    fun id t k s s' hv hv' => ?_⟩
  · rw [eventShort, decodeForward_eq_some h.tables]
    constructor
    · rintro ⟨-, hv⟩
      exact (hforward .event id s hs hv).2.2
    · intro hv
      exact ⟨hs, (h.tables.reverse .event s id hs hv).2.2⟩
  · rw [stateKeyShort_eq_some h.tables, shortStateKey]
    constructor
    · rintro ⟨encoded, hencoded, -, hv⟩
      rw [(hforward .stateKey encoded s hs hv).2.2, Option.elim_some, decodeStateKey_encodeStateKey hencoded]
      rfl
    · intro hv
      cases hr : tablesOf ids a.store.db (.reverse .stateKey s) with
      | none =>
        rw [hr] at hv
        cases hv
      | some name =>
        obtain ⟨t', k', hencoded⟩ := h.encoded s hs name hr
        rw [hr, Option.elim_some, decodeStateKey_encodeStateKey hencoded] at hv
        cases hv
        exact ⟨name, hencoded, hs, (h.tables.reverse .stateKey s name hs hr).2.2⟩
  · obtain ⟨hs, hv⟩ := (decodeForward_eq_some h.tables).mp hv
    exact ⟨(hforward .event id s hs hv).1, (hforward .event id s hs hv).2.1⟩
  · obtain ⟨encoded, -, hs, hv⟩ := (stateKeyShort_eq_some h.tables).mp hv
    exact ⟨(hforward .stateKey encoded s hs hv).1, (hforward .stateKey encoded s hs hv).2.1⟩
  · rintro rfl
    obtain ⟨hs, hv⟩ := (decodeForward_eq_some h.tables).mp hv
    obtain ⟨encoded, -, -, hv'⟩ := (stateKeyShort_eq_some h.tables).mp hv'
    exact h.tables.apart s id encoded hs (hforward .event id s hs hv).2.2 (hforward .stateKey encoded s hs hv').2.2

theorem empty_consistent (hempty : ∀ r, E.get a.store.db r = none)
    (hcounter : a.counter = 0) : Consistent ids a := by
  have hnone : ∀ slot, tablesOf ids a.store.db slot = none := fun slot => hempty _
  refine ⟨⟨?_, fun kind name bytes hv => ?_, fun kind s name _ hv => ?_, fun s name name' _ hv => ?_⟩, ?_,
    fun s _ name hv => ?_⟩
  · rw [hcounter]
    exact Nat.zero_le _
  · rw [hnone] at hv
    cases hv
  · rw [hnone] at hv
    cases hv
  · rw [hnone] at hv
    cases hv
  · rw [hnone, hcounter]
    rfl
  · rw [hnone] at hv
    cases hv

theorem Consistent.run (h : Consistent ids a) (hrun : Reaches (step ids) (fun _ _ => True) a a') :
    Consistent ids a' ∧ Extends ids a.store.db a'.store.db := by
  refine hrun.invariant (P := fun x => Consistent ids x ∧ Extends ids a.store.db x.store.db)
    ⟨h, fun _ _ _ hv => hv⟩ fun op x x' hx _ hs => ?_
  cases hs
  obtain ⟨hx', hext⟩ := exec_consistent hx.1 op
  exact ⟨hx', fun kind name bytes hv => hext kind name bytes (hx.2 kind name bytes hv)⟩

theorem Extends.eventShort {db' : E.Db} {counter' : Nat} (hext : Extends ids db db')
    (h : Tables (tablesOf ids db) counter) (h' : Tables (tablesOf ids db') counter') {id : Bytes} {s : Nat}
    (hv : ShortIds.eventShort ids db id = .ok (some s)) : ShortIds.eventShort ids db' id = .ok (some s) := by
  obtain ⟨hs, hv⟩ := (decodeForward_eq_some h).mp hv
  exact (decodeForward_eq_some h').mpr ⟨hs, hext _ _ _ hv⟩

theorem Extends.stateKeyShort {db' : E.Db} {counter' : Nat} (hext : Extends ids db db')
    (h : Tables (tablesOf ids db) counter) (h' : Tables (tablesOf ids db') counter') {eventType stateKey : String}
    {s : Nat} (hv : ShortIds.stateKeyShort ids db eventType stateKey = .ok (some s)) :
    ShortIds.stateKeyShort ids db' eventType stateKey = .ok (some s) := by
  obtain ⟨encoded, hencoded, hs, hv⟩ := (stateKeyShort_eq_some h).mp hv
  exact (stateKeyShort_eq_some h').mpr ⟨encoded, hencoded, hs, hext _ _ _ hv⟩

/-- After every sequence of calls and reopenings the tables are inverse; a name keeps its
short id and is answered with it, as often as it occurs in a batch; a call that fails
changes nothing. -/
theorem short_ids_inverse {a₀ : Adapter E} (hempty : ∀ r, E.get a₀.store.db r = none) (hcounter : a₀.counter = 0)
    (hrun : Reaches (step ids) (fun _ _ => True) a₀ a) :
    Inverse ids a ∧
    (∀ a', Reaches (step ids) (fun _ _ => True) a a' →
      (∀ id s, eventShort ids a.store.db id = .ok (some s) → eventShort ids a'.store.db id = .ok (some s)) ∧
      ∀ eventType stateKey s, stateKeyShort ids a.store.db eventType stateKey = .ok (some s) →
        stateKeyShort ids a'.store.db eventType stateKey = .ok (some s)) ∧
    (∀ es shorts a', (allocateEvents ids es).exec a = (.ok shorts, a') → ∃ g : EventId → Nat, shorts = es.map g ∧
      ∀ id ∈ es, eventShort ids a'.store.db id.1 = .ok (some (g id)) ∧
        ∀ s, eventShort ids a.store.db id.1 = .ok (some s) → g id = s) ∧
    (∀ eventType stateKey s a', (allocateStateKey ids eventType stateKey).exec a = (.ok s, a') →
      stateKeyShort ids a'.store.db eventType stateKey = .ok (some s) ∧
        ∀ s', stateKeyShort ids a.store.db eventType stateKey = .ok (some s') → s = s') ∧
    ∀ (op : Op) (e : StorageError) (a' : Adapter E), op.exec ids a = (.error e, a') →
      a'.store.db = a.store.db ∧ a'.counter = a.counter := by
  have h : Consistent ids a := ((empty_consistent hempty hcounter).run hrun).1
  refine ⟨h.inverse, fun a' hrun' => ?_, fun es shorts a' hcall => ?_, fun t k s a' hcall => ?_,
    fun op e a' hcall => exec_error h.tables hcall⟩
  · obtain ⟨h', hext⟩ := h.run hrun'
    exact ⟨fun _ _ hv => hext.eventShort h.tables h'.tables hv,
      fun _ _ _ hv => hext.stateKeyShort h.tables h'.tables hv⟩
  · obtain ⟨h', hext, g, hshorts, hg⟩ := h.allocateEvents hcall
    refine ⟨g, hshorts, fun id hid => ?_⟩
    have hnew : eventShort ids a'.store.db id.1 = .ok (some (g id)) :=
      (decodeForward_eq_some h'.tables).mpr (hg id hid)
    refine ⟨hnew, fun s hs => ?_⟩
    have hold := hext.eventShort h.tables h'.tables hs
    rw [hnew] at hold
    cases hold
    rfl
  · obtain ⟨h', hext, encoded, hencoded, hs, hv⟩ := h.allocateStateKey hcall
    have hnew := (stateKeyShort_eq_some h'.tables).mpr ⟨encoded, hencoded, hs, hv⟩
    refine ⟨hnew, fun s' hs' => ?_⟩
    have hold := hext.stateKeyShort h.tables h'.tables hs'
    rw [hnew] at hold
    cases hold
    rfl

end

/-! ## A commit that fails -/

def first : EventId := ⟨utf8 "$a", by decide⟩

def second : EventId := ⟨utf8 "$b", by decide⟩

/-- The first commit fails. -/
def failingOnce : Adapter (memory (String × Bytes)) :=
  ⟨Store.World.new fun n => if n = 2 then some (.other "disk full") else none, 0⟩

/-- The batch is allocated when it is tried again by a new adapter. -/
theorem batch_allocated_again :
    ∃ a : Adapter (memory (String × Bytes)), Reaches (step plainIds) (fun _ _ => True) failingOnce a ∧
      a.counter = 3 ∧
      eventShort plainIds a.store.db first.1 = .ok (some 1) ∧ shortEvent plainIds a.store.db 1 = some first.1 := by
  have hrun : ((runWhile (step plainIds) (fun _ _ => True) [.allocateEvents [first, second, first], .reopen,
      .allocateEvents [first, second, first], .allocateStateKey "m.room.name" "", .reopen] failingOnce).map fun a =>
        (a.counter, (eventShort plainIds a.store.db first.1).toOption)) = some (3, some (some 1)) := by decide
  obtain ⟨a, ha, hv⟩ := Option.map_eq_some_iff.mp hrun
  rw [Prod.mk.injEq] at hv
  have hreach := Reaches.of_runWhile _ .init ha
  have hevent : eventShort plainIds a.store.db first.1 = .ok (some 1) := by
    cases he : eventShort plainIds a.store.db first.1 with
    | error e =>
      rw [he] at hv
      cases hv.2
    | ok s =>
      rw [he] at hv
      exact congrArg Except.ok (Option.some.inj hv.2)
  have hinverse := (short_ids_inverse (fun _ => rfl) rfl hreach).1
  exact ⟨a, hreach, hv.1, hevent, (hinverse.events first.1 1 (by decide)).mp hevent⟩

end Congruent.ShortIds
