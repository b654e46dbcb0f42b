import Mathlib.Algebra.Ring.Nat
import Mathlib.Data.List.Induction
import Congruent.Zoom
import Congruent.KeyedMap

/-!
# The storage engine

What the adapters use of the storage engine (`mtxdb/src/store.rs`): records in
collections, collection versions, and transactions that may expect a version. The
engine itself is a parameter.
-/

namespace Congruent.Store

abbrev Bytes := List UInt8

/-! ## Numbers as bytes -/

/-- The low bytes of a number, the highest first. -/
def toBeBytes : Nat → Nat → Bytes
  | 0, _ => []
  | width + 1, n => toBeBytes width (n / 256) ++ [UInt8.ofNat (n % 256)]

def ofBeBytes (bytes : Bytes) : Nat := bytes.foldl (fun acc b => acc * 256 + b.toNat) 0

@[simp] theorem length_toBeBytes (width n : Nat) : (toBeBytes width n).length = width := by
  induction width generalizing n with
  | zero => rfl
  | succ width ih => simp [toBeBytes, ih]

theorem ofBeBytes_toBeBytes (width n : Nat) : ofBeBytes (toBeBytes width n) = n % 256 ^ width := by
  induction width generalizing n with
  | zero => simp [toBeBytes, ofBeBytes, Nat.mod_one]
  | succ width ih =>
    have hbyte : (UInt8.ofNat (n % 256)).toNat = n % 256 := by
      rw [UInt8.toNat_ofNat']
      exact Nat.mod_mod _ _
    have hfold : ofBeBytes (toBeBytes (width + 1) n) = ofBeBytes (toBeBytes width (n / 256)) * 256 + n % 256 := by
      simp only [toBeBytes, ofBeBytes, List.foldl_append, List.foldl_cons, List.foldl_nil, hbyte]
    rw [hfold, ih, Nat.pow_succ, Nat.mul_comm (256 ^ width) 256, Nat.mod_mul]
    omega

theorem toBeBytes_inj {width n m : Nat} (hn : n < 256 ^ width) (hm : m < 256 ^ width)
    (h : toBeBytes width n = toBeBytes width m) : n = m := by
  have hval := congrArg ofBeBytes h
  rwa [ofBeBytes_toBeBytes, ofBeBytes_toBeBytes, Nat.mod_eq_of_lt hn, Nat.mod_eq_of_lt hm] at hval

theorem ofBeBytes_concat (bytes : Bytes) (b : UInt8) :
    ofBeBytes (bytes ++ [b]) = ofBeBytes bytes * 256 + b.toNat := by
  simp only [ofBeBytes, List.foldl_append, List.foldl_cons, List.foldl_nil]

theorem toBeBytes_ofBeBytes (bytes : Bytes) : toBeBytes bytes.length (ofBeBytes bytes) = bytes := by
  induction bytes using List.reverseRecOn with
  | nil => rfl
  | append_singleton bytes b ih =>
    have hb := b.toNat_lt
    have hlow : (ofBeBytes bytes * 256 + b.toNat) % 256 = b.toNat := by omega
    have hrest : (ofBeBytes bytes * 256 + b.toNat) / 256 = ofBeBytes bytes := by omega
    rw [List.length_append, List.length_singleton, toBeBytes, ofBeBytes_concat, hlow, hrest, ih, UInt8.ofNat_toNat]

theorem ofBeBytes_lt (bytes : Bytes) : ofBeBytes bytes < 256 ^ bytes.length := by
  have h := ofBeBytes_toBeBytes bytes.length (ofBeBytes bytes)
  rw [toBeBytes_ofBeBytes] at h
  rw [h]
  exact Nat.mod_lt _ (Nat.pow_pos (by decide))

/-- The first bytes and the rest. -/
def splitAt (n : Nat) (bytes : Bytes) : Option (Bytes × Bytes) :=
  if bytes.length < n then none else some (bytes.take n, bytes.drop n)

theorem splitAt_append {n : Nat} {a b : Bytes} (h : a.length = n) : splitAt n (a ++ b) = some (a, b) := by
  unfold splitAt
  rw [if_neg (by simp [h]), List.take_left' h, List.drop_left' h]

theorem of_splitAt {n : Nat} {bytes a b : Bytes} (h : splitAt n bytes = some (a, b)) :
    bytes = a ++ b ∧ a.length = n := by
  unfold splitAt at h
  split at h
  · cases h
  · rename_i hlen
    obtain ⟨rfl, rfl⟩ := Prod.mk.inj (Option.some.inj h)
    exact ⟨(List.take_append_drop n bytes).symm, List.length_take_of_le (Nat.le_of_not_lt hlen)⟩

def utf8 (s : String) : Bytes := s.toUTF8.data.toList

def ofUtf8 (bytes : Bytes) : Option String := String.fromUTF8? ⟨bytes.toArray⟩

@[simp] theorem ofUtf8_utf8 (s : String) : ofUtf8 (utf8 s) = some s := by
  have hbytes : (⟨(utf8 s).toArray⟩ : ByteArray) = s.toUTF8 := by simp [utf8]
  rw [ofUtf8, hbytes, String.fromUTF8?]
  split
  · rfl
  · rename_i h
    exact absurd s.isValidUTF8 (by simpa using h)

theorem utf8_of_ofUtf8 {bytes : Bytes} {s : String} (h : ofUtf8 bytes = some s) : utf8 s = bytes := by
  unfold ofUtf8 String.fromUTF8? at h
  split at h
  · cases h
    rfl
  · cases h

/-! ## Transactions -/

inductive ShardType where
  | eventDag
  | state
  | edges
  | serverInfo
  deriving DecidableEq

inductive StorageError where
  | staleRead
  | corrupt (message : String)
  | other (message : String)
  deriving DecidableEq

theorem ok_of_bind {A B : Type} {x : Except StorageError A} {f : A → Except StorageError B} {b : B}
    (h : (x >>= f) = .ok b) : ∃ a, x = .ok a ∧ f a = .ok b := by
  cases x with
  | error e => cases h
  | ok a => exact ⟨a, rfl, h⟩

structure Record (Id : Type) where
  shard : ShardType
  collection : Id
  node : Id
  deriving DecidableEq

/-- Staged writes, the latest first (a removal has no data), and expected versions. -/
structure Transaction (Id : Type) where
  staged : List (Record Id × Option Bytes)
  expected : List ((ShardType × Id) × Nat)

namespace Transaction

variable {Id : Type}

def begin : Transaction Id := ⟨[], []⟩

def put (tx : Transaction Id) (r : Record Id) (data : Bytes) : Transaction Id :=
  { tx with staged := (r, some data) :: tx.staged }

def remove (tx : Transaction Id) (r : Record Id) : Transaction Id := { tx with staged := (r, none) :: tx.staged }

def putMany (tx : Transaction Id) (writes : List (Record Id × Bytes)) : Transaction Id :=
  writes.foldl (fun tx w => tx.put w.1 w.2) tx

def removeMany (tx : Transaction Id) (records : List (Record Id)) : Transaction Id :=
  records.foldl (fun tx r => tx.remove r) tx

def expectCollectionVersion (tx : Transaction Id) (shard : ShardType) (collection : Id) (version : Nat) :
    Transaction Id :=
  { tx with expected := ((shard, collection), version) :: tx.expected }

theorem staged_putMany (tx : Transaction Id) (writes : List (Record Id × Bytes)) :
    (tx.putMany writes).staged = (writes.map fun w => (w.1, some w.2)).reverse ++ tx.staged := by
  induction writes generalizing tx with
  | nil => rfl
  | cons w writes ih =>
    have hcons : tx.putMany (w :: writes) = (tx.put w.1 w.2).putMany writes := rfl
    rw [hcons, ih]
    simp [put]

theorem expected_putMany (tx : Transaction Id) (writes : List (Record Id × Bytes)) :
    (tx.putMany writes).expected = tx.expected := by
  induction writes generalizing tx with
  | nil => rfl
  | cons w writes ih =>
    have hcons : tx.putMany (w :: writes) = (tx.put w.1 w.2).putMany writes := rfl
    rw [hcons, ih]
    rfl

theorem removeMany_cons (tx : Transaction Id) (r : Record Id) (records : List (Record Id)) :
    tx.removeMany (r :: records) = (tx.remove r).removeMany records := rfl

theorem staged_removeMany (tx : Transaction Id) (records : List (Record Id)) :
    (tx.removeMany records).staged = (records.map fun r => (r, none)).reverse ++ tx.staged := by
  induction records generalizing tx with
  | nil => rfl
  | cons r records ih =>
    rw [removeMany_cons, ih]
    simp [remove]

theorem expected_removeMany (tx : Transaction Id) (records : List (Record Id)) :
    (tx.removeMany records).expected = tx.expected := by
  induction records generalizing tx with
  | nil => rfl
  | cons r records ih =>
    rw [removeMany_cons, ih]
    rfl

end Transaction

/-- The engine. A commit applies all that is staged or fails and applies nothing; a
version is advanced by every committed write to its collection. Whether an empty record
is one is left open. -/
structure Engine (Id : Type) [DecidableEq Id] where
  Db : Type
  get : Db → Record Id → Option Bytes
  version : Db → ShardType → Id → Nat
  commit : Db → Transaction Id → Except StorageError Db
  commit_expected : ∀ {db tx db'}, commit db tx = .ok db' → ∀ e ∈ tx.expected, version db e.1.1 e.1.2 = e.2
  commit_put : ∀ {db tx db' r data}, commit db tx = .ok db' → tx.staged.lookup r = some (some data) → data ≠ [] →
    get db' r = some data
  commit_put_empty : ∀ {db tx db' r}, commit db tx = .ok db' → tx.staged.lookup r = some (some []) →
    get db' r = none ∨ get db' r = some []
  commit_remove : ∀ {db tx db' r}, commit db tx = .ok db' → tx.staged.lookup r = some none → get db' r = none
  commit_other : ∀ {db tx db' r}, commit db tx = .ok db' → tx.staged.lookup r = none → get db' r = get db r
  version_le : ∀ {db tx db' shard collection}, commit db tx = .ok db' →
    version db shard collection ≤ version db' shard collection
  version_eq : ∀ {db tx db' shard collection}, commit db tx = .ok db' →
    version db' shard collection = version db shard collection → ∀ node,
      get db' ⟨shard, collection, node⟩ = get db ⟨shard, collection, node⟩

namespace Transaction

variable {Id : Type} [DecidableEq Id]

def view (tx : Transaction Id) (f : Record Id → Option Bytes) (r : Record Id) : Option Bytes :=
  (tx.staged.lookup r).getD (f r)

/-- No record is empty. -/
def Filled (tx : Transaction Id) : Prop := ∀ m ∈ tx.staged, m.2 ≠ some []

theorem view_put (tx : Transaction Id) (f : Record Id → Option Bytes) (r r' : Record Id) (data : Bytes) :
    (tx.put r data).view f r' = if r' = r then some data else tx.view f r' := by
  by_cases h : r' = r
  · subst h
    simp [view, put]
  · have hne : (r' == r) = false := by simpa using h
    simp [view, put, List.lookup_cons, hne, h]

omit [DecidableEq Id] in
theorem Filled.put {tx : Transaction Id} (h : tx.Filled) (r : Record Id) {data : Bytes} (hdata : data ≠ []) :
    (tx.put r data).Filled := by
  intro m hm
  rcases List.mem_cons.mp hm with rfl | hm
  · simpa using hdata
  · exact h m hm

omit [DecidableEq Id] in
theorem filled_begin : (begin : Transaction Id).Filled := fun m hm => by cases hm

end Transaction

namespace Transaction

variable {Id : Type} [DecidableEq Id] (tx : Transaction Id) (f : Record Id → Option Bytes) {r : Record Id}

theorem view_of_lookup (h : tx.staged.lookup r = none) : tx.view f r = f r := by rw [view, h, Option.getD_none]

theorem lookup_put (r r' : Record Id) (data : Bytes) :
    (tx.put r data).staged.lookup r' = if r' = r then some (some data) else tx.staged.lookup r' := by
  by_cases h : r' = r
  · simp [put, h]
  · have hne : (r' == r) = false := by simpa using h
    simp [put, List.lookup_cons, hne, h]

theorem lookup_putMany {writes : List (Record Id × Bytes)} {x : Option Bytes}
    (h : (tx.putMany writes).staged.lookup r = some x) :
    (∃ data, (r, data) ∈ writes ∧ x = some data) ∨ tx.staged.lookup r = some x := by
  rw [staged_putMany, List.lookup_append] at h
  cases hl : (writes.map fun w => (w.1, some w.2)).reverse.lookup r with
  | none =>
    rw [hl] at h
    exact .inr h
  | some y =>
    rw [hl] at h
    have hy := List.mem_of_lookup hl
    rw [List.mem_reverse] at hy
    obtain ⟨w, hw, hpair⟩ := List.mem_map.mp hy
    obtain ⟨rfl, rfl⟩ := Prod.mk.inj hpair
    exact .inl ⟨w.2, hw, (Option.some.inj h).symm⟩

theorem lookup_putMany_of_mem {writes : List (Record Id × Bytes)} {data : Bytes} (h : (r, data) ∈ writes)
    (hfun : ∀ data', (r, data') ∈ writes → data' = data) :
    (tx.putMany writes).staged.lookup r = some (some data) := by
  have hmem : (r, some data) ∈ (writes.map fun w => (w.1, some w.2)).reverse := by
    rw [List.mem_reverse]
    exact List.mem_map.mpr ⟨_, h, rfl⟩
  rw [staged_putMany, List.lookup_append]
  cases hl : (writes.map fun w => (w.1, some w.2)).reverse.lookup r with
  | none => exact absurd hl (List.lookup_ne_none hmem)
  | some x =>
    have hx := List.mem_of_lookup hl
    rw [List.mem_reverse] at hx
    obtain ⟨w, hw, hpair⟩ := List.mem_map.mp hx
    obtain ⟨rfl, rfl⟩ := Prod.mk.inj hpair
    rw [hfun w.2 hw]
    rfl

theorem lookup_putMany_of_not_mem {writes : List (Record Id × Bytes)} (h : ∀ data, (r, data) ∉ writes) :
    (tx.putMany writes).staged.lookup r = tx.staged.lookup r := by
  rw [staged_putMany, List.lookup_append]
  cases hl : (writes.map fun w => (w.1, some w.2)).reverse.lookup r with
  | none => rfl
  | some x =>
    have hx := List.mem_of_lookup hl
    rw [List.mem_reverse] at hx
    obtain ⟨w, hw, hpair⟩ := List.mem_map.mp hx
    obtain ⟨rfl, -⟩ := Prod.mk.inj hpair
    exact absurd hw (h w.2)

end Transaction

theorem Engine.get_of_commit_at {Id : Type} [DecidableEq Id] (E : Engine Id) {db db' : E.Db} {tx : Transaction Id}
    (h : E.commit db tx = .ok db') {r : Record Id} (hr : tx.staged.lookup r ≠ some (some [])) :
    E.get db' r = tx.view (E.get db) r := by
  unfold Transaction.view
  cases hl : tx.staged.lookup r with
  | none => exact E.commit_other h hl
  | some data =>
    cases data with
    | none => exact E.commit_remove h hl
    | some data => exact E.commit_put h hl fun hempty => hr (by rw [hl, hempty])

theorem Engine.get_of_commit {Id : Type} [DecidableEq Id] (E : Engine Id) {db db' : E.Db} {tx : Transaction Id}
    (h : E.commit db tx = .ok db') (hfilled : tx.Filled) (r : Record Id) : E.get db' r = tx.view (E.get db) r :=
  E.get_of_commit_at h fun hl => hfilled _ (List.mem_of_lookup hl) rfl

section
variable {Id : Type} [DecidableEq Id] (E : Engine Id) {db db' : E.Db}

theorem Engine.get_of_putMany {writes : List (Record Id × Bytes)}
    (h : E.commit db (Transaction.begin.putMany writes) = .ok db') (hne : ∀ w ∈ writes, w.2 ≠ []) (r : Record Id) :
    (∃ data, (r, data) ∈ writes ∧ E.get db' r = some data) ∨
      (∀ data, (r, data) ∉ writes) ∧ E.get db' r = E.get db r := by
  have hmem : ∀ m, m ∈ (Transaction.begin.putMany writes).staged ↔ ∃ w ∈ writes, (w.1, some w.2) = m := by
    intro m
    simp [Transaction.staged_putMany, Transaction.begin]
  have hfilled : (Transaction.begin.putMany writes).Filled := by
    intro m hm
    obtain ⟨w, hw, rfl⟩ := (hmem m).mp hm
    simpa using hne w hw
  rw [E.get_of_commit h hfilled r, Transaction.view]
  cases hl : (Transaction.begin.putMany writes).staged.lookup r with
  | none =>
    refine .inr ⟨fun data hd => ?_, rfl⟩
    exact List.lookup_ne_none ((hmem (r, some data)).mpr ⟨_, hd, rfl⟩) hl
  | some data =>
    obtain ⟨w, hw, hpair⟩ := (hmem _).mp (List.mem_of_lookup hl)
    obtain ⟨rfl, rfl⟩ := Prod.mk.inj hpair
    exact .inl ⟨w.2, hw, rfl⟩

theorem Engine.get_of_removeMany {tx : Transaction Id} {records : List (Record Id)} (htx : tx.staged = [])
    (h : E.commit db (tx.removeMany records) = .ok db') (r : Record Id) :
    E.get db' r = if r ∈ records then none else E.get db r := by
  have hmem : ∀ m, m ∈ (tx.removeMany records).staged ↔ ∃ r ∈ records, (r, none) = m := by
    intro m
    simp [Transaction.staged_removeMany, htx]
  have hfilled : (tx.removeMany records).Filled := by
    intro m hm
    obtain ⟨r, -, rfl⟩ := (hmem m).mp hm
    simp
  rw [E.get_of_commit h hfilled r, Transaction.view]
  cases hl : (tx.removeMany records).staged.lookup r with
  | none =>
    rw [if_neg fun hr => List.lookup_ne_none ((hmem (r, none)).mpr ⟨r, hr, rfl⟩) hl]
    rfl
  | some data =>
    obtain ⟨r', hr, hpair⟩ := (hmem _).mp (List.mem_of_lookup hl)
    obtain ⟨rfl, rfl⟩ := Prod.mk.inj hpair
    rw [if_pos hr]
    rfl

end

/-- The records of a collection, all at once. -/
structure Scan {Id : Type} [DecidableEq Id] (E : Engine Id) where
  scan : E.Db → ShardType → Id → List (Id × Bytes)
  mem_scan : ∀ {db shard collection node bytes}, (node, bytes) ∈ scan db shard collection ↔
    E.get db ⟨shard, collection, node⟩ = some bytes

def adapterDomains : List String :=
  ["short", "short-statekey", "short-eid-rev", "short-sk-rev", "authchain:counter",
    "authchain:fwd", "authchain:rev",
    "authchain:closure"]

/-- The derivation of ids, taken to be without collisions. -/
structure Ids (Id : Type) where
  deriveId : String → Bytes → Id
  eventRecordId : Bytes → Id
  /-- The number in the first four bytes. -/
  head : Id → Nat
  eventLocatorBuckets : Nat
  deriveId_inj : ∀ {domain key domain' key'}, deriveId domain key = deriveId domain' key' →
    domain = domain' ∧ key = key'
  eventRecordId_inj : ∀ {id id'}, eventRecordId id = eventRecordId id' → id = id'
  eventRecordId_ne : ∀ {id domain key}, domain ∈ adapterDomains → eventRecordId id ≠ deriveId domain key

/-! ## Operations on the store -/

section
variable {Id : Type} [DecidableEq Id] {E : Engine Id} {A : Type}

/-- The store, with the errors its operations run into, by their number. -/
structure World (E : Engine Id) where
  db : E.Db
  faults : Nat → Option StorageError
  clock : Nat

/-- Programs over the store. -/
abbrev Access (E : Engine Id) (A : Type) := Call StorageError (World E) A

def World.tick (w : World E) : World E := { w with clock := w.clock + 1 }

/-- One read. -/
def ask (f : E.Db → A) : Access E A :=
  Call.act fun w => ((w.faults w.clock).elim (.ok (f w.db)) .error, w.tick)

def commit (E : Engine Id) (tx : Transaction Id) : Access E Unit :=
  Call.act fun w =>
    match w.faults w.clock with
    | some e => (.error e, w.tick)
    | none =>
      match E.commit w.db tx with
      | .ok db' => (.ok (), { w.tick with db := db' })
      | .error e => (.error e, w.tick)

/-- A pure step that may fail. -/
def check (r : Except StorageError A) : Access E A := ExceptT.mk (pure r)

/-! ## What steps of the store do -/

theorem ask_eq_ok {f : E.Db → A} {w : World E} {a : A}
    (h : (w.faults w.clock).elim (.ok (f w.db)) .error = Except.ok a) : a = f w.db := by
  cases hf : w.faults w.clock with
  | none =>
    rw [hf] at h
    cases h
    rfl
  | some e =>
    rw [hf] at h
    cases h

end

/-! ## Programs that run alone -/

section
variable {Id : Type} [DecidableEq Id] {E : Engine Id} {A B : Type} {db : E.Db}

theorem ask_triple (f : E.Db → A) :
    Call.Triple (fun w : World E => w.db = db) (ask f) (fun a w => w.db = db ∧ a = f db) fun w => w.db = db := by
  rintro w rfl
  refine ⟨fun a w' h => ?_, fun e w' h => ?_⟩
  · obtain ⟨hok, rfl⟩ := Prod.mk.inj h
    exact ⟨rfl, ask_eq_ok hok⟩
  · obtain ⟨-, rfl⟩ := Prod.mk.inj h
    rfl

theorem check_triple (r : Except StorageError A) {P : World E → Prop} :
    Call.Triple P (check r : Access E A) (fun a w => P w ∧ r = .ok a) P := by
  intro w hw
  refine ⟨fun a w' h => ?_, fun e w' h => ?_⟩
  · obtain ⟨hr, rfl⟩ := Prod.mk.inj h
    exact ⟨hw, hr⟩
  · obtain ⟨-, rfl⟩ := Prod.mk.inj h
    exact hw

theorem commit_triple (tx : Transaction Id) :
    Call.Triple (fun w : World E => w.db = db) (commit E tx) (fun _ w => E.commit db tx = .ok w.db)
      fun w => w.db = db := by
  rintro w rfl
  have hcommit : (commit E tx).exec w = match w.faults w.clock with
    | some e => (.error e, w.tick)
    | none =>
      match E.commit w.db tx with
      | .ok db' => (.ok (), { w.tick with db := db' })
      | .error e => (.error e, w.tick) := rfl
  rw [hcommit]
  split
  · refine ⟨fun a w' h => (by cases h), fun e w' h => ?_⟩
    cases h
    rfl
  · split
    · rename_i db' hdb
      refine ⟨fun a w' h => ?_, fun e w' h => by cases h⟩
      cases h
      exact hdb
    · refine ⟨fun a w' h => (by cases h), fun e w' h => ?_⟩
      cases h
      rfl

end

/-! ## An engine in memory -/

structure Memory (Id : Type) where
  records : Record Id → Option Bytes
  versions : ShardType → Id → Nat

namespace Memory

variable {Id : Type}

def empty : Memory Id := ⟨fun _ => none, fun _ _ => 0⟩

variable [DecidableEq Id]

def writes (db : Memory Id) (tx : Transaction Id) (shard : ShardType) (collection : Id) : Bool :=
  tx.staged.any fun m => decide (m.1.shard = shard) && decide (m.1.collection = collection) &&
    (m.2.isSome || (db.records m.1).isSome)

/-- An empty record is none. -/
def store (data : Option Bytes) : Option Bytes := data.filter fun bytes => !bytes.isEmpty

def commit (db : Memory Id) (tx : Transaction Id) : Except StorageError (Memory Id) :=
  if tx.expected.all fun e => decide (db.versions e.1.1 e.1.2 = e.2) then
    .ok ⟨fun r => (tx.staged.lookup r).elim (db.records r) store, fun shard collection =>
      if db.writes tx shard collection then db.versions shard collection + 1 else db.versions shard collection⟩
  else .error .staleRead

variable {db db' : Memory Id} {tx : Transaction Id} {r : Record Id}

theorem commit_eq_ok (h : commit db tx = .ok db') : (∀ e ∈ tx.expected, db.versions e.1.1 e.1.2 = e.2) ∧
    (∀ r, db'.records r = (tx.staged.lookup r).elim (db.records r) store) ∧
      ∀ shard collection, db'.versions shard collection =
        if db.writes tx shard collection then db.versions shard collection + 1 else
          db.versions shard collection := by
  unfold commit at h
  split at h
  · rename_i hexpected
    cases h
    refine ⟨fun e he => ?_, fun _ => rfl, fun _ _ => rfl⟩
    simpa using List.all_eq_true.mp hexpected e he
  · cases h

theorem records_of_not_writes (h : commit db tx = .ok db') {shard : ShardType} {collection : Id}
    (hw : db.writes tx shard collection = false) (node : Id) :
    db'.records ⟨shard, collection, node⟩ = db.records ⟨shard, collection, node⟩ := by
  rw [(commit_eq_ok h).2.1]
  cases hl : tx.staged.lookup ⟨shard, collection, node⟩ with
  | none => rfl
  | some data =>
    have hnot := List.any_eq_false.mp hw (⟨shard, collection, node⟩, data) (List.mem_of_lookup hl)
    simp only [decide_true, Bool.true_and, Bool.or_eq_true, not_or, Bool.not_eq_true, Option.isSome_eq_false_iff,
      Option.isNone_iff_eq_none] at hnot
    rw [hnot.1, hnot.2]
    rfl

end Memory

def memory (Id : Type) [DecidableEq Id] : Engine Id where
  Db := Memory Id
  get db r := db.records r
  version db shard collection := db.versions shard collection
  commit := Memory.commit
  commit_expected h := (Memory.commit_eq_ok h).1
  commit_put h hl hne := by
    rw [(Memory.commit_eq_ok h).2.1, hl]
    simp [Memory.store, Option.filter, hne]
  commit_put_empty h hl := by
    rw [(Memory.commit_eq_ok h).2.1, hl]
    exact .inl rfl
  commit_remove h hl := by
    rw [(Memory.commit_eq_ok h).2.1, hl]
    rfl
  commit_other h hl := by
    rw [(Memory.commit_eq_ok h).2.1, hl]
    rfl
  version_le h := by
    rw [(Memory.commit_eq_ok h).2.2]
    split
    · exact Nat.le_succ _
    · exact Nat.le_refl _
  version_eq h heq node := by
    rw [(Memory.commit_eq_ok h).2.2] at heq
    split at heq
    · omega
    · rename_i hw
      exact Memory.records_of_not_writes h (by simpa using hw) node

/-! ## An engine that keeps all that was ever written -/

section
variable {Id : Type} [DecidableEq Id]

/-- What was written, the latest first. -/
abbrev Log (Id : Type) := List (Record Id × Option Bytes)

namespace Log

def get (db : Log Id) (r : Record Id) : Option Bytes := (db.lookup r).elim none Memory.store

def version (db : Log Id) (shard : ShardType) (collection : Id) : Nat :=
  db.countP fun m => m.1.shard = shard ∧ m.1.collection = collection

def commit (db : Log Id) (tx : Transaction Id) : Except StorageError (Log Id) :=
  if tx.expected.all fun e => decide (db.version e.1.1 e.1.2 = e.2) then .ok (tx.staged ++ db) else
    .error .staleRead

def scan (db : Log Id) (shard : ShardType) (collection : Id) : List (Id × Bytes) :=
  (db.map Prod.fst).eraseDups.filterMap fun r =>
    if r.shard = shard ∧ r.collection = collection then (db.get r).map fun bytes => (r.node, bytes) else none

variable {db db' : Log Id} {tx : Transaction Id} {r : Record Id}

theorem commit_eq_ok (h : commit db tx = .ok db') :
    (∀ e ∈ tx.expected, db.version e.1.1 e.1.2 = e.2) ∧ db' = tx.staged ++ db := by
  unfold commit at h
  split at h
  · rename_i hexpected
    cases h
    refine ⟨fun e he => ?_, rfl⟩
    simpa using List.all_eq_true.mp hexpected e he
  · cases h

theorem get_append (staged : Log Id) (r : Record Id) :
    get (staged ++ db) r = (staged.lookup r).elim (get db r) Memory.store := by
  unfold get
  rw [List.lookup_append]
  cases staged.lookup r with
  | none => rfl
  | some data => rfl

theorem version_append (staged : Log Id) (shard : ShardType) (collection : Id) :
    version (staged ++ db) shard collection = version staged shard collection + version db shard collection :=
  List.countP_append

theorem get_of_version {staged : Log Id} {shard : ShardType} {collection : Id}
    (h : version (staged ++ db) shard collection = version db shard collection) (node : Id) :
    get (staged ++ db) ⟨shard, collection, node⟩ = get db ⟨shard, collection, node⟩ := by
  rw [version_append] at h
  have hzero : version staged shard collection = 0 := by omega
  rw [get_append]
  cases hl : staged.lookup ⟨shard, collection, node⟩ with
  | none => rfl
  | some data => simpa using List.countP_eq_zero.mp hzero _ (List.mem_of_lookup hl)

theorem mem_scan {shard : ShardType} {collection node : Id} {bytes : Bytes} :
    (node, bytes) ∈ scan db shard collection ↔ get db ⟨shard, collection, node⟩ = some bytes := by
  unfold scan
  rw [List.mem_filterMap]
  constructor
  · rintro ⟨⟨shard', collection', node'⟩, -, h⟩
    split at h
    · rename_i heq
      obtain ⟨bytes', hget, hpair⟩ := Option.map_eq_some_iff.mp h
      obtain ⟨rfl, rfl⟩ := Prod.mk.inj hpair
      obtain ⟨rfl, rfl⟩ := heq
      exact hget
    · cases h
  · intro h
    cases hl : db.lookup ⟨shard, collection, node⟩ with
    | none => simp [get, hl] at h
    | some data =>
      refine ⟨_, List.mem_eraseDups.mpr (List.mem_map_of_mem (List.mem_of_lookup hl)), ?_⟩
      simp [h]

end Log

def logged (Id : Type) [DecidableEq Id] : Engine Id where
  Db := Log Id
  get := Log.get
  version := Log.version
  commit := Log.commit
  commit_expected h := (Log.commit_eq_ok h).1
  commit_put h hl hne := by
    rw [(Log.commit_eq_ok h).2, Log.get_append, hl]
    simp [Memory.store, Option.filter, hne]
  commit_put_empty h hl := by
    rw [(Log.commit_eq_ok h).2, Log.get_append, hl]
    exact .inl rfl
  commit_remove h hl := by
    rw [(Log.commit_eq_ok h).2, Log.get_append, hl]
    rfl
  commit_other h hl := by
    rw [(Log.commit_eq_ok h).2, Log.get_append, hl]
    rfl
  version_le h := by
    rw [(Log.commit_eq_ok h).2, Log.version_append]
    omega
  version_eq h heq node := by
    rw [(Log.commit_eq_ok h).2] at heq ⊢
    exact Log.get_of_version heq node

def loggedScan (Id : Type) [DecidableEq Id] : Scan (logged Id) where
  scan := Log.scan
  mem_scan := Log.mem_scan

end

def plainIds : Ids (String × Bytes) where
  deriveId domain key := (domain, key)
  eventRecordId id := ("event", id)
  head id := id.2.length
  eventLocatorBuckets := 4
  deriveId_inj h := Prod.mk.inj h
  eventRecordId_inj h := (Prod.mk.inj h).2
  eventRecordId_ne h heq := by
    rw [← (Prod.mk.inj heq).1] at h
    revert h
    decide

/-- A new store, with the errors that its operations will run into. -/
def World.new (faults : Nat → Option StorageError) : World (memory (String × Bytes)) :=
  ⟨Memory.empty, faults, 0⟩

end Congruent.Store
