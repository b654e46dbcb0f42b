import Congruent.Store
import Congruent.Machine

/-!
# Writes of events (`mtxdb/src/events.rs`)

An event is staged in a transaction with its edges, short ids for it and its auth
events, and the closure of its auth events. Many transactions are open at a time, and
each goes on by one read or one commit. Reads look at the store, not at what is staged.
-/

namespace Congruent.EventWrites

open Store

def u32Max : Nat := 4294967295

/-! ## Bitmaps -/

/-- A set of numbers, in order. -/
structure Bitmap where
  elements : List Nat
  sorted : elements.Pairwise (· < ·)

namespace Bitmap

def empty : Bitmap := ⟨[], .nil⟩

instance : Membership Nat Bitmap := ⟨fun b n => n ∈ b.elements⟩

theorem not_mem_empty (n : Nat) : n ∉ empty := List.not_mem_nil

def insertSorted (n : Nat) : List Nat → List Nat
  | [] => [n]
  | m :: ms => if n < m then n :: m :: ms else if n = m then m :: ms else m :: insertSorted n ms

theorem mem_insertSorted {n m : Nat} {l : List Nat} : m ∈ insertSorted n l ↔ m = n ∨ m ∈ l := by
  induction l with
  | nil => simp [insertSorted]
  | cons k l ih =>
    unfold insertSorted
    split
    · exact List.mem_cons
    · split
      · rename_i heq
        subst heq
        simp
      · rw [List.mem_cons, ih, List.mem_cons]
        constructor
        · rintro (h | h | h)
          · exact .inr (.inl h)
          · exact .inl h
          · exact .inr (.inr h)
        · rintro (h | h | h)
          · exact .inr (.inl h)
          · exact .inl h
          · exact .inr (.inr h)

theorem sorted_insertSorted (n : Nat) {l : List Nat} (h : l.Pairwise (· < ·)) :
    (insertSorted n l).Pairwise (· < ·) := by
  induction l with
  | nil => simp [insertSorted]
  | cons k l ih =>
    obtain ⟨hk, hl⟩ := List.pairwise_cons.mp h
    unfold insertSorted
    split
    · rename_i hlt
      refine List.pairwise_cons.mpr ⟨fun m hm => ?_, h⟩
      rcases List.mem_cons.mp hm with rfl | hm
      · exact hlt
      · exact Nat.lt_trans hlt (hk m hm)
    · split
      · exact h
      · refine List.pairwise_cons.mpr ⟨fun m hm => ?_, ih hl⟩
        rcases mem_insertSorted.mp hm with rfl | hm
        · omega
        · exact hk m hm

def insert (b : Bitmap) (n : Nat) : Bitmap := ⟨insertSorted n b.elements, sorted_insertSorted n b.sorted⟩

def union (b b' : Bitmap) : Bitmap := b'.elements.foldl insert b

theorem mem_insert {b : Bitmap} {n m : Nat} : m ∈ b.insert n ↔ m = n ∨ m ∈ b := mem_insertSorted

theorem mem_union {b b' : Bitmap} {n : Nat} : n ∈ b.union b' ↔ n ∈ b ∨ n ∈ b' := by
  have hfold : ∀ (l : List Nat) (b : Bitmap), n ∈ l.foldl insert b ↔ n ∈ b ∨ n ∈ l := by
    intro l
    induction l with
    | nil => simp
    | cons m l ih =>
      intro b
      rw [List.foldl_cons, ih, mem_insert, List.mem_cons]
      constructor
      · rintro ((h | h) | h)
        · exact .inr (.inl h)
        · exact .inl h
        · exact .inr (.inr h)
      · rintro (h | h | h)
        · exact .inl (.inr h)
        · exact .inl (.inl h)
        · exact .inr h
  exact hfold b'.elements b

theorem nodup (b : Bitmap) : b.elements.Nodup := b.sorted.imp fun h => Nat.ne_of_lt h

end Bitmap

/-! ## Records -/

/-- The collections and the codecs of events. Whether no edges are written as nothing is
left open; a bitmap always has a header. -/
structure Layout (Id : Type) where
  ids : Ids Id
  roomEventCollectionId : Bytes → Id
  roomPrevCollectionId : Bytes → Id
  roomAuthCollectionId : Bytes → Id
  eventLocatorCollectionId : Id → Id
  encodeEdges : List Bytes → Except StorageError Bytes
  decodeEdges : Bytes → Except StorageError (List Bytes)
  encodeLocator : Bytes → Bytes → Except StorageError Bytes
  decodeLocator : Bytes → Except StorageError (Bytes × Bytes)
  encodeBitmap : Bitmap → Bytes
  decodeBitmap : Bytes → Except String Bitmap
  auth_inj : ∀ {room room'}, roomAuthCollectionId room = roomAuthCollectionId room' → room = room'
  auth_ne_prev : ∀ {room room'}, roomAuthCollectionId room ≠ roomPrevCollectionId room'
  decodeEdges_encode : ∀ {edges bytes}, encodeEdges edges = .ok bytes → decodeEdges bytes = .ok edges
  encodeEdges_nil : ∀ {edges}, encodeEdges edges = .ok [] → edges = []
  decodeBitmap_encode : ∀ {b}, (∀ n ∈ b, n ≤ u32Max) → decodeBitmap (encodeBitmap b) = .ok b
  encodeBitmap_ne : ∀ {b}, encodeBitmap b ≠ []

/-- The records of a room's auth collection. -/
inductive Slot where
  | counter
  | forward (eventId : Bytes)
  | reverse (key : Bytes)
  | closure (key : Bytes)
  | edges (eventId : Bytes)
  deriving DecidableEq

/-- The short ids of a room. -/
def Slot.IsTable : Slot → Prop
  | .closure _ => False
  | .edges _ => False
  | _ => True

def reverseOf (short : Nat) : Slot := .reverse (toBeBytes 4 short)

def closureOf (short : Nat) : Slot := .closure (toBeBytes 4 short)

/-- The domain that the id of a record is derived in; edges have the id of their event. -/
def Slot.domain : Slot → Option String
  | .counter => some "authchain:counter"
  | .forward _ => some "authchain:fwd"
  | .reverse _ => some "authchain:rev"
  | .closure _ => some "authchain:closure"
  | .edges _ => none

def Slot.key : Slot → Bytes
  | .counter => []
  | .forward eventId => eventId
  | .reverse key => key
  | .closure key => key
  | .edges eventId => eventId

theorem Slot.ext {slot slot' : Slot} (hdomain : slot.domain = slot'.domain) (hkey : slot.key = slot'.key) :
    slot = slot' := by
  cases slot <;> cases slot' <;> simp_all [domain, key]

theorem Slot.domain_mem {slot : Slot} {domain : String} (h : slot.domain = some domain) : domain ∈
    adapterDomains := by
  cases slot <;> cases h <;> decide

section
variable {Id : Type} (L : Layout Id)

def Slot.node (slot : Slot) : Id :=
  match slot.domain with
  | some domain => L.ids.deriveId domain slot.key
  | none => L.ids.eventRecordId slot.key

def authRecord (room : Bytes) (slot : Slot) : Record Id := ⟨.edges, L.roomAuthCollectionId room, slot.node L⟩

variable {L}

theorem Slot.node_inj {slot slot' : Slot} (h : slot.node L = slot'.node L) : slot = slot' := by
  unfold node at h
  cases hd : slot.domain with
  | some domain =>
    cases hd' : slot'.domain with
    | some domain' =>
      rw [hd, hd'] at h
      obtain ⟨rfl, hkey⟩ := L.ids.deriveId_inj h
      exact Slot.ext (hd.trans hd'.symm) hkey
    | none =>
      rw [hd, hd'] at h
      exact absurd h.symm (L.ids.eventRecordId_ne (domain_mem hd))
  | none =>
    cases hd' : slot'.domain with
    | some domain' =>
      rw [hd, hd'] at h
      exact absurd h (L.ids.eventRecordId_ne (domain_mem hd'))
    | none =>
      rw [hd, hd'] at h
      exact Slot.ext (hd.trans hd'.symm) (L.ids.eventRecordId_inj h)

theorem authRecord_inj {room room' : Bytes} {slot slot' : Slot}
    (h : authRecord L room slot = authRecord L room' slot') : room = room' ∧ slot = slot' :=
  ⟨L.auth_inj (Record.mk.inj h).2.1, Slot.node_inj (Record.mk.inj h).2.2⟩

end

/-! ## Reads -/

def decodeCounter : Option Bytes → Except StorageError Nat
  | some bytes => if bytes.length = 4 then .ok (ofBeBytes bytes) else .error (.corrupt "malformed auth counter")
  | none => .ok 0

def encodeForward (short : Nat) (eventId : Bytes) : Bytes := toBeBytes 4 short ++ eventId

def decodeForward (eventId : Bytes) : Option Bytes → Except StorageError (Option Nat)
  | some bytes =>
    match splitAt 4 bytes with
    | some (short, stored) => .ok (if stored = eventId then some (ofBeBytes short) else none)
    | none => .error (.corrupt "malformed auth short-id record")
  | none => .ok none

section
variable {Id : Type} [DecidableEq Id] {E : Engine Id} (L : Layout Id)

def slots (E : Engine Id) (db : E.Db) (room : Bytes) (slot : Slot) : Option Bytes :=
  E.get db (authRecord L room slot)

def committedShortId (E : Engine Id) (db : E.Db) (room eventId : Bytes) : Except StorageError (Option Nat) :=
  decodeForward eventId (slots L E db room (.forward eventId))

def decodeClosure (bytes : Bytes) : Except StorageError Bitmap :=
  (L.decodeBitmap bytes).mapError fun e => .corrupt ("auth closure bitmap: " ++ e)

def eventOf (E : Engine Id) (db : E.Db) (room : Bytes) (short : Nat) : Except StorageError Bytes :=
  (slots L E db room (reverseOf short)).elim (.error (.corrupt "auth closure short id has no event")) .ok

def persistedAuthChain (E : Engine Id) (db : E.Db) (room eventId : Bytes) :
    Except StorageError (Option (List Bytes)) := do
  match ← committedShortId L E db room eventId with
  | none => .ok none
  | some short =>
    match slots L E db room (closureOf short) with
    | none => .ok none
    | some bytes =>
      let closure ← decodeClosure L bytes
      let ids ← closure.elements.mapM (eventOf L E db room)
      .ok (some ids)

/-- What a walk has seen, in the order in which it found it, and what it found last. -/
structure Walk where
  seen : List Bytes
  chain : List Bytes
  next : List Bytes

def Walk.find (w : Walk) (auth : Bytes) : Walk :=
  if w.seen.contains auth then w else ⟨auth :: w.seen, w.chain ++ [auth], w.next ++ [auth]⟩

def walkLevel (E : Engine Id) (db : E.Db) (room : Bytes) (w : Walk) (frontier : List Bytes) :
    Except StorageError Walk :=
  frontier.foldlM (fun w eventId =>
    match slots L E db room (.edges eventId) with
    | some bytes => (L.decodeEdges bytes).map fun edges => edges.foldl Walk.find w
    | none => .ok w) w

def walkLoop (E : Engine Id) (db : E.Db) (room : Bytes) : Nat → Walk → Option (Except StorageError (List Bytes))
  | 0, _ => none
  | n + 1, w =>
    if w.next.isEmpty then some (.ok w.chain)
    else
      match walkLevel L E db room { w with next := [] } w.next with
      | .ok w => walkLoop E db room n w
      | .error e => some (.error e)

def walkAuthChain (E : Engine Id) (n : Nat) (db : E.Db) (room eventId : Bytes) :
    Option (Except StorageError (List Bytes)) :=
  walkLoop L E db room n ⟨[eventId], [], [eventId]⟩

/-! ## Staging -/

/-- An event to write. -/
structure Item where
  room : Bytes
  eventId : Bytes
  body : Bytes
  prevEvents : List Bytes
  authEvents : List Bytes
  eventId_ne : eventId ≠ []
  auth_ne : ∀ id ∈ authEvents, id ≠ []

def Item.ids (item : Item) : List Bytes := item.eventId :: item.authEvents

/-- Short ids given out: the next to give, those given, and the ones of all ids so far. -/
structure Alloc where
  next : Nat
  staged : List (Bytes × Nat)
  shorts : List Nat

def allocate : List (Bytes × Option Nat) → Alloc → Except StorageError Alloc
  | [], a => .ok a
  | (id, found) :: ids, a =>
    match found.or (a.staged.lookup id) with
    | some short => allocate ids { a with shorts := a.shorts ++ [short] }
    | none =>
      if u32Max ≤ a.next then .error (.corrupt "room short ids exhausted")
      else allocate ids ⟨a.next + 1, a.staged ++ [(id, a.next + 1)], a.shorts ++ [a.next + 1]⟩

def locatorRecord (eventId : Bytes) : Record Id :=
  let node := L.ids.eventRecordId eventId
  ⟨.eventDag, L.eventLocatorCollectionId node, node⟩

def checkLocator (eventId : Bytes) : Option Bytes → Except StorageError Unit
  | some bytes => do
    let stored ← L.decodeLocator bytes
    if stored.1 ≠ eventId then .error (.corrupt "event record id collision in locator") else .ok ()
  | none => .ok ()

/-- Stages the event and its edges; `existing` is the locator found. -/
def stageEvent (tx : Transaction Id) (item : Item) (existing : Option Bytes) :
    Except StorageError (Transaction Id) := do
  let node := L.ids.eventRecordId item.eventId
  let tx := tx.put ⟨.eventDag, L.roomEventCollectionId item.room, node⟩ item.body
  checkLocator L item.eventId existing
  let locator ← L.encodeLocator item.eventId item.room
  let tx := tx.put (locatorRecord L item.eventId) locator
  let prev ← L.encodeEdges item.prevEvents
  let auth ← L.encodeEdges item.authEvents
  let tx := tx.put ⟨.edges, L.roomPrevCollectionId item.room, node⟩ prev
  .ok (tx.put (authRecord L item.room (.edges item.eventId)) auth)

/-- The records of short ids given out. -/
def allocWrites (room : Bytes) (staged : List (Bytes × Nat)) : List (Record Id × Bytes) :=
  staged.flatMap fun p =>
    [(authRecord L room (.forward p.1), encodeForward p.2 p.1), (authRecord L room (reverseOf p.2), p.1)]

/-- What `stage_closure` stages. -/
def stageClosure (tx : Transaction Id) (room : Bytes) (version start : Nat) (alloc : Alloc) (own : Nat)
    (closure : Bitmap) (complete : Bool) : Transaction Id :=
  let tx := tx.putMany (allocWrites L room alloc.staged)
  let tx := if complete then tx.put (authRecord L room (closureOf own)) (L.encodeBitmap closure) else tx
  if alloc.next ≠ start then
    (tx.put (authRecord L room .counter) (toBeBytes 4 alloc.next)).expectCollectionVersion .edges
      (L.roomAuthCollectionId room) version
  else tx

/-! ## Transactions -/

/-- Where a transaction stands: between two events, in one of them, or at its end. -/
inductive Phase where
  | ready
  | staged (item : Item)
  | versioned (item : Item) (version : Nat)
  | shorts (item : Item) (version start : Nat) (found : List (Bytes × Option Nat)) (todo : List Bytes)
  | closing (item : Item) (version start : Nat) (alloc : Alloc) (own : Nat) (closure : Bitmap) (complete : Bool)
    (todo : List Nat)
  | done (result : Except StorageError Unit)

/-- A transaction for some events, those left to stage, and whether it is tried again. -/
structure Task (Id : Type) where
  items : List Item
  retries : Bool
  attempts : Nat
  left : List Item
  tx : Transaction Id
  phase : Phase

def Task.start (items : List Item) (retries : Bool) (attempts : Nat) : Task Id :=
  ⟨items, retries, attempts, items, .begin, .ready⟩

def Task.isDone (t : Task Id) : Bool :=
  match t.phase with
  | .done _ => true
  | _ => false

/-- Whether the next step is the commit. -/
def Task.commits (t : Task Id) : Bool :=
  match t.phase, t.left with
  | .ready, [] => true
  | _, _ => false

omit [DecidableEq Id] in
theorem Task.commits_eq_true {t : Task Id} (h : t.commits = true) : t.phase = .ready ∧ t.left = [] := by
  unfold commits at h
  split at h
  · rename_i hp hl
    exact ⟨hp, hl⟩
  · cases h

/-- What an error makes of a transaction. -/
def Task.fail (t : Task Id) (e : StorageError) : Task Id :=
  if t.commits = true ∧ e = .staleRead ∧ t.retries = true ∧ t.attempts < 3 then
    .start t.items t.retries (t.attempts + 1)
  else { t with phase := .done (.error e) }

/-- The next step of a transaction, unless the store fails. -/
def Task.next (db : E.Db) (t : Task Id) : Task Id × E.Db :=
  match t.phase with
  | .ready =>
    match t.left with
    | item :: left =>
      match stageEvent L t.tx item (E.get db (locatorRecord L item.eventId)) with
      | .ok tx => ({ t with left := left, tx := tx, phase := .staged item }, db)
      | .error e => (t.fail e, db)
    | [] =>
      match E.commit db t.tx with
      | .ok db' => ({ t with phase := .done (.ok ()) }, db')
      | .error e => (t.fail e, db)
  | .staged item =>
    ({ t with phase := .versioned item (E.version db .edges (L.roomAuthCollectionId item.room)) }, db)
  | .versioned item version =>
    match decodeCounter (slots L E db item.room .counter) with
    | .ok start => ({ t with phase := .shorts item version start [] item.ids }, db)
    | .error e => (t.fail e, db)
  | .shorts item version start found (id :: todo) =>
    match committedShortId L E db item.room id with
    | .ok short => ({ t with phase := .shorts item version start (found ++ [(id, short)]) todo }, db)
    | .error e => (t.fail e, db)
  | .shorts item version start found [] =>
    match allocate found ⟨start, [], []⟩ with
    | .ok alloc =>
      match alloc.shorts with
      | own :: auth => ({ t with phase := .closing item version start alloc own .empty true auth }, db)
      | [] => (t.fail (.corrupt "no short id for event"), db)
    | .error e => (t.fail e, db)
  | .closing item version start alloc own closure complete (short :: todo) =>
    match slots L E db item.room (closureOf short) with
    | some bytes =>
      match decodeClosure L bytes with
      | .ok stored =>
        ({ t with
          phase := .closing item version start alloc own ((closure.insert short).union stored) complete todo }, db)
      | .error e => (t.fail e, db)
    | none => ({ t with phase := .closing item version start alloc own (closure.insert short) false todo }, db)
  | .closing item version start alloc own closure complete [] =>
    ({ t with tx := stageClosure L t.tx item.room version start alloc own closure complete, phase := .ready }, db)
  | .done _ => (t, db)

structure State (E : Engine Id) where
  db : E.Db
  tasks : List (Task Id)

inductive Action where
  /-- `write_event_with_edges`. -/
  | write (item : Item)
  /-- Calls of `put_event_with_edges` in one transaction, and its commit. -/
  | transact (items : List Item)
  | run (i : Nat) (fault : Option StorageError)

def step : Action → State E → Option (State E)
  | .write item, s => some { s with tasks := s.tasks ++ [.start [item] true 0] }
  | .transact items, s => some { s with tasks := s.tasks ++ [.start items false 0] }
  | .run i fault, s => do
    let t ← s.tasks[i]?
    if t.isDone then none
    else
      match fault with
      | some e => some { s with tasks := s.tasks.set i (t.fail e) }
      | none => some ⟨(t.next L s.db).2, s.tasks.set i (t.next L s.db).1⟩

end

/-! ## A layout -/

/-- Every byte is marked, and so is the end of every edge. -/
def encodeMarked (edges : List Bytes) : Bytes := edges.flatMap fun e => e.flatMap (fun b => [1, b]) ++ [0]

def decodeMarked : Bytes → List Bytes → Bytes → Except StorageError (List Bytes)
  | [], edges, [] => .ok edges
  | 0 :: bytes, edges, edge => decodeMarked bytes (edges ++ [edge]) []
  | 1 :: b :: bytes, edges, edge => decodeMarked bytes edges (edge ++ [b])
  | _, _, _ => .error (.corrupt "malformed edges")

theorem decodeMarked_edge (e bytes edge : Bytes) (edges : List Bytes) :
    decodeMarked (e.flatMap (fun b => [1, b]) ++ 0 :: bytes) edges edge =
      decodeMarked bytes (edges ++ [edge ++ e]) [] := by
  induction e generalizing edge with
  | nil => simp [decodeMarked]
  | cons b e ih =>
    have hcons : (b :: e).flatMap (fun b => [1, b]) ++ 0 :: bytes =
        1 :: b :: (e.flatMap (fun b => [1, b]) ++ 0 :: bytes) := rfl
    rw [hcons, decodeMarked, ih, List.append_assoc]
    rfl

theorem decodeMarked_encode (edges done : List Bytes) :
    decodeMarked (encodeMarked edges) done [] = .ok (done ++ edges) := by
  induction edges generalizing done with
  | nil => simp [encodeMarked, decodeMarked]
  | cons e edges ih =>
    have hcons : encodeMarked (e :: edges) = e.flatMap (fun b => [1, b]) ++ 0 :: encodeMarked edges := by
      simp [encodeMarked]
    rw [hcons, decodeMarked_edge, ih]
    simp

def encodeShorts (b : Bitmap) : Bytes := 1 :: b.elements.flatMap (toBeBytes 4)

def decodeShorts : Bytes → List Nat
  | a :: b :: c :: d :: bytes => ofBeBytes [a, b, c, d] :: decodeShorts bytes
  | _ => []

theorem decodeShorts_cons {n : Nat} (h : n ≤ u32Max) (bytes : Bytes) :
    decodeShorts (toBeBytes 4 n ++ bytes) = n :: decodeShorts bytes := by
  have hlen := length_toBeBytes 4 n
  match hb : toBeBytes 4 n, hlen with
  | [a, b, c, d], _ =>
    have hn : ofBeBytes [a, b, c, d] = n := by
      rw [← hb, ofBeBytes_toBeBytes]
      apply Nat.mod_eq_of_lt
      unfold u32Max at h
      omega
    simp [decodeShorts, hn]

theorem decodeShorts_flatMap {l : List Nat} (h : ∀ n ∈ l, n ≤ u32Max) : decodeShorts
    (l.flatMap (toBeBytes 4)) = l := by
  induction l with
  | nil => rfl
  | cons n l ih =>
    rw [List.flatMap_cons, decodeShorts_cons (h n List.mem_cons_self), ih fun m hm =>
      h m (List.mem_cons_of_mem _ hm)]

def decodeBitmap : Bytes → Except String Bitmap
  | 1 :: bytes =>
    if h : (decodeShorts bytes).Pairwise (· < ·) then .ok ⟨decodeShorts bytes, h⟩ else .error "not in order"
  | _ => .error "no header"

def plainLayout : Layout (String × Bytes) where
  ids := plainIds
  roomEventCollectionId room := ("evnt", room)
  roomPrevCollectionId room := ("prev", room)
  roomAuthCollectionId room := ("auth", room)
  eventLocatorCollectionId node := ("locator", [UInt8.ofNat (node.2.length % 4)])
  encodeEdges edges := .ok (encodeMarked edges)
  decodeEdges bytes := decodeMarked bytes [] []
  encodeLocator eventId room := .ok (encodeMarked [eventId, room])
  decodeLocator bytes :=
    match decodeMarked bytes [] [] with
    | .ok [eventId, room] => .ok (eventId, room)
    | _ => .error (.corrupt "malformed locator")
  encodeBitmap := encodeShorts
  decodeBitmap := decodeBitmap
  auth_inj h := (Prod.mk.inj h).2
  auth_ne_prev h := by simpa using (Prod.mk.inj h).1
  decodeEdges_encode h := by
    cases h
    exact decodeMarked_encode _ []
  encodeEdges_nil {edges} h := by
    cases edges with
    | nil => rfl
    | cons e edges => simp [encodeMarked] at h
  decodeBitmap_encode {b} h := by
    have hb : decodeShorts (b.elements.flatMap (toBeBytes 4)) = b.elements := decodeShorts_flatMap h
    unfold encodeShorts EventWrites.decodeBitmap
    simp [hb, b.sorted]
  encodeBitmap_ne := by simp [encodeShorts]

/-- An event without a body. -/
def plainItem (room eventId : Bytes) (auth : List Bytes) (hid : eventId ≠ [])
    (hauth : ∀ id ∈ auth, id ≠ []) : Item :=
  ⟨room, eventId, [], [], auth, hid, hauth⟩

abbrev PlainState := State (logged (String × Bytes))

def plainStep : Action → PlainState → Option PlainState := step plainLayout

end Congruent.EventWrites
