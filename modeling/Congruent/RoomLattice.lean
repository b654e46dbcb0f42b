import Mathlib.Logic.Function.Basic
import Congruent.Event
import Congruent.Enumeration
import Congruent.KeyedMap
import Congruent.MapSum

/-!
# Lattices of room states (`rooms/state/mod.rs`, `event_handler/resolve_state.rs`)

A room state is a tree with short state keys and short event ids as leaves. The lattice of
a tree, the sum of what its leaves hash to, is kept under the hash of the tree. Where the
lattice of the root before is known, an appended event changes the tree and the lattice;
where it is not, both are built again. Trees and lattices come from a library, a parameter.
-/

namespace Congruent.RoomLattice

abbrev Bytes := List UInt8

abbrev NamedKey := String × StateKey

abbrev Leaves := AList fun _ : Nat => Nat
abbrev ShortState := AList fun _ : Nat => EventId
abbrev NamedState := AList fun _ : NamedKey => EventId

def eventIds {K : Type} (state : AList fun _ : K => EventId) : List EventId := state.entries.map fun e => e.2

/-- `rezzy::hamt` and `rezzy::incremental::LtHash` (`G`). -/
structure Rezzy (SKey Hash Handle G : Type) where
  Node : Type
  structuralHash : Node → Hash
  /-- What `visit_entries` visits. -/
  entries : Node → Leaves
  buildHamt : SKey → Leaves → Except String Node
  /-- The new tree and the displaced value. -/
  persistMutation : Node → SKey → Nat → Option Nat → Except String (Node × Option Nat)
  persistMutations : Node → SKey → List (Nat × Option Nat) → Except String Node
  default : G
  insert : G → String → String → String → G
  replace : G → String → String → String → String → G
  toBytes : G → Bytes
  fromBytes : Bytes → Option G
  fromLthash : Hash → G → Handle
  handleHash : Handle → Hash

def latticeLen : Nat := 2048

inductive StateError where
  | invalidParam (message : String)
  | notFound (message : String)
  | database (message : String)
  | hamt (message : String)

variable {SKey Hash Handle G : Type}

def Rezzy.leaves (R : Rezzy SKey Hash Handle G) (t : R.Node) : Finmap fun _ : Nat => Nat := (R.entries t).toFinmap

/-- A mutation gives the tree that building gives, a hash names its leaves, and a lattice is
a sum in a commutative group. `Of` holds of the trees made with a key. -/
structure Rezzy.Lawful [AddCommGroup G] (R : Rezzy SKey Hash Handle G) (Of : SKey → R.Node → Prop)
    (leaf : String → String → String → G) : Prop where
  build : ∀ {key l t}, R.buildHamt key l = .ok t → Of key t ∧ R.leaves t = l.toFinmap
  mutation : ∀ {key t k v t' displaced}, Of key t → R.persistMutation t key k v = .ok (t', displaced) →
    Of key t' ∧ R.leaves t' = (R.leaves t).mutate (k, v) ∧ displaced = (R.leaves t).lookup k
  mutations : ∀ {key t l t'}, Of key t → R.persistMutations t key l = .ok t' →
    Of key t' ∧ R.leaves t' = (R.leaves t).mutateAll l
  refuses : ∀ {key t k v l}, Of key t → (R.leaves t).mutate (k, v) = l.toFinmap →
    (R.persistMutation t key k v).isOk = (R.buildHamt key l).isOk
  hash_eq : ∀ {key t t'}, Of key t → Of key t' → R.leaves t = R.leaves t' → R.structuralHash t = R.structuralHash t'
  leaves_eq : ∀ {t t'}, R.structuralHash t = R.structuralHash t' → R.leaves t = R.leaves t'
  default : R.default = 0
  insert : ∀ {g ty sk id}, R.insert g ty sk id = g + leaf ty sk id
  replace : ∀ {g ty sk old new}, R.replace g ty sk old new = g - leaf ty sk old + leaf ty sk new
  fromBytes : ∀ {g}, R.fromBytes (R.toBytes g) = some g
  length : ∀ {g}, (R.toBytes g).length = latticeLen
  handleHash : ∀ {hash g}, R.handleHash (R.fromLthash hash g) = hash

/-- The reads of a call that fail. -/
structure Faults where
  pointer : Bool
  pointerAgain : Bool
  lattice : Bool
  nodes : Bool
  durable : Bool
  stateKey : Nat → Bool
  eventId : Nat → Bool

def Faults.none : Faults := ⟨false, false, false, false, false, fun _ => false, fun _ => false⟩

/-- What the rooms share. `returned` are the roots that the calls gave their callers, with
the trees. -/
structure Service (R : Rezzy SKey Hash Handle G) : Type where
  keys : Enumeration NamedKey
  events : Enumeration EventId
  nodes : RoomId → Hash → Option R.Node
  stateHamtRootLattices : Hash → Option Bytes
  latticeCache : Hash → Option Bytes
  roomidRoothandle : RoomId → Option Handle
  returned : List (RoomId × Handle × R.Node)

/-- How an append goes on. -/
inductive Path (Handle G : Type) where
  | incremental (base : Handle) (lattice : G)
  | rebuild (base : Option Handle)
  | refused (e : StateError)

namespace Service

variable {R : Rezzy SKey Hash Handle G}

def empty : Service R := ⟨.empty, .empty, fun _ _ => none, fun _ => none, fun _ => none, fun _ => none, []⟩

/-! ## Reads -/

def getRoomStateHamt (s : Service R) (fails : Bool) (room : RoomId) : Except StateError Handle :=
  if fails then .error (.database "roomid_roothandle")
  else match s.roomidRoothandle room with
    | none => .error (.notFound "not found in database")
    | some root => .ok root

def getNode (s : Service R) (fails : Bool) (room : RoomId) (hash : Hash) : Except StateError R.Node :=
  if fails then .error (.database "mtxdb")
  else match s.nodes room hash with
    | none => .error (.database "State HAMT node not found in mtxdb.")
    | some node => .ok node

def getEventidFromShort (s : Service R) (f : Faults) (short : Nat) : Except StateError EventId :=
  if f.eventId short then .error (.database "mtxdb short id event id lookup failed")
  else match s.events.get? short with
    | none => .error (.notFound "event id for short not found")
    | some id => .ok id

def getStatekeyFromShort (s : Service R) (f : Faults) (short : Nat) : Except StateError NamedKey :=
  if f.stateKey short then .error (.database "mtxdb short id state key lookup failed")
  else match s.keys.get? short with
    | none => .error (.database "Failed to find (StateEventType, state_key) from short")
    | some key => .ok key

variable {s : Service R} {f : Faults} {room : RoomId} {n : Nat} {id : EventId}

theorem getEventidFromShort_ok (h : s.getEventidFromShort f n = .ok id) :
    s.events.get? n = some id := by
  unfold Service.getEventidFromShort at h
  split at h
  · cases h
  · split at h
    · cases h
    · rename_i hget
      cases h
      exact hget

theorem getEventidFromShort_eq (hf : f.eventId n = false)
    (h : s.events.get? n = some id) : s.getEventidFromShort f n = .ok id := by
  unfold Service.getEventidFromShort
  rw [hf, h]
  rfl

theorem getStatekeyFromShort_eq {key : NamedKey} (hf : f.stateKey n = false)
    (h : s.keys.get? n = some key) : s.getStatekeyFromShort f n = .ok key := by
  unfold Service.getStatekeyFromShort
  rw [hf, h]
  rfl

theorem getStatekeyFromShort_ok {key : NamedKey} (h : s.getStatekeyFromShort f n = .ok key) :
    s.keys.get? n = some key := by
  unfold getStatekeyFromShort at h
  split at h
  · cases h
  · split at h
    · cases h
    · rename_i hget
      cases h
      exact hget

theorem getRoomStateHamt_ok {fails : Bool} {root : Handle} (h : s.getRoomStateHamt fails room = .ok root) :
    s.roomidRoothandle room = some root := by
  unfold getRoomStateHamt at h
  split at h
  · cases h
  · split at h
    · cases h
    · rename_i hget
      cases h
      exact hget

theorem getNode_ok {fails : Bool} {hash : Hash} {t : R.Node} (h : s.getNode fails room hash = .ok t) :
    s.nodes room hash = some t := by
  unfold Service.getNode at h
  split at h
  · cases h
  · split at h
    · cases h
    · rename_i hget
      cases h
      exact hget

theorem getNode_eq {fails : Bool} {hash : Hash} {t : R.Node} (hf : fails = false) (h : s.nodes room hash = some t) :
    s.getNode fails room hash = .ok t := by
  unfold getNode
  rw [hf, h]
  rfl

def loadEventIds (s : Service R) (f : Faults) : List (Σ _ : Nat, Nat) → Except StateError ShortState
  | [] => .ok ∅
  | e :: l =>
    match s.getEventidFromShort f e.2 with
    | .error e => .error e
    | .ok id => (s.loadEventIds f l).map fun map => map.insert e.1 id

theorem lookup_loadEventIds {l : List (Σ _ : Nat, Nat)} {map : ShortState} (h : s.loadEventIds f l = .ok map)
    (k : Nat) : map.lookup k = (l.dlookup k).bind s.events.get? := by
  induction l generalizing map with
  | nil =>
    cases h
    rfl
  | cons e l ih =>
    unfold Service.loadEventIds at h
    cases hid : s.getEventidFromShort f e.2 with
    | error e' => simp [hid] at h
    | ok id =>
      cases hl : s.loadEventIds f l with
      | error e' => simp [hid, hl, Except.map] at h
      | ok rest =>
        simp only [hid, hl, Except.map, Except.ok.injEq] at h
        rw [← h, AList.lookup_insert_ite]
        by_cases hk : k = e.1
        · subst hk
          rw [if_pos rfl, List.dlookup_cons_eq, Option.bind_some, getEventidFromShort_ok hid]
        · rw [if_neg hk, List.dlookup_cons_ne l e hk, ih hl]

theorem loadEventIds_ok {l : List (Σ _ : Nat, Nat)} (hf : ∀ n, f.eventId n = false)
    (h : ∀ e ∈ l, ∃ id, s.events.get? e.2 = some id) : ∃ map, s.loadEventIds f l = .ok map := by
  induction l with
  | nil => exact ⟨∅, rfl⟩
  | cons e l ih =>
    obtain ⟨id, hid⟩ := h e List.mem_cons_self
    obtain ⟨map, hmap⟩ := ih fun e' he' => h e' (List.mem_cons_of_mem e he')
    unfold loadEventIds
    rw [getEventidFromShort_eq (hf e.2) hid, hmap]
    exact ⟨_, rfl⟩

def loadStateMapFromRootHandle (s : Service R) (f : Faults) (room : RoomId) (root : Handle) (skip : Nat) :
    Except StateError ShortState :=
  match s.getNode f.nodes room (R.handleHash root) with
  | .error e => .error e
  | .ok node => s.loadEventIds f ((R.entries node).entries.filter fun e => e.1 ≠ skip)

/-! ## Lattices -/

section
variable [DecidableEq Hash]

def persistRootLattice (s : Service R) (root : Handle) (lattice : G) : Service R :=
  let encoded := R.toBytes lattice
  { s with
    stateHamtRootLattices := Function.update s.stateHamtRootLattices (R.handleHash root) (some encoded)
    latticeCache := Function.update s.latticeCache (R.handleHash root) (some encoded) }

def getRootLattice (s : Service R) (fails : Bool) (root : Handle) : Service R × Option G :=
  match s.latticeCache (R.handleHash root) with
  | some raw => (s, R.fromBytes raw)
  | none =>
    if fails then (s, none)
    else match s.stateHamtRootLattices (R.handleHash root) with
      | none => (s, none)
      | some raw =>
        if raw.length ≠ latticeLen then (s, none)
        else match R.fromBytes raw with
          | none => (s, none)
          | some lattice =>
            ({ s with latticeCache := Function.update s.latticeCache (R.handleHash root) (some raw) }, some lattice)

/-! ## Appending -/

def putLeaf (s : Service R) (f : Faults) (lattice : G) (key : NamedKey) (displaced : Option Nat) (id : EventId) :
    Except StateError G :=
  match displaced with
  | some old =>
    match s.getEventidFromShort f old with
    | .error e => .error e
    | .ok oldId => .ok (R.replace lattice key.1 key.2 oldId id)
  | none => .ok (R.insert lattice key.1 key.2 id)

variable (structuralKey : RoomId → SKey)

def appendIncremental (s : Service R) (f : Faults) (room : RoomId) (key : NamedKey) (id : EventId) (base : Handle)
    (lattice : G) : Service R × Except StateError (Handle × R.Node) :=
  match s.getNode f.nodes room (R.handleHash base) with
  | .error e => (s, .error e)
  | .ok old =>
    let s := { s with events := s.events.number id }
    match R.persistMutation old (structuralKey room) (s.keys.short key) (some (s.events.short id)) with
    | .error e => (s, .error (.hamt ("HAMT mutation failed: " ++ e)))
    | .ok (new, displaced) =>
      match s.putLeaf f lattice key displaced id with
      | .error e => (s, .error e)
      | .ok lattice =>
        if f.durable then (s, .error (.database "Failed to check HAMT node durability in mtxdb"))
        else
          let handle := R.fromLthash (R.structuralHash new) lattice
          (s.persistRootLattice handle lattice, .ok (handle, new))

/-- The state that a rebuild begins with, less the key of the event. -/
def loadBase (s : Service R) (f : Faults) (room : RoomId) (base : Option Handle) (skip : Nat) :
    Except StateError ShortState :=
  match base with
  | some root => s.loadStateMapFromRootHandle f room root skip
  | none => .ok ∅

def putShort (s : Service R) (f : Faults) (lattice : G) (e : Σ _ : Nat, EventId) : G :=
  match s.getStatekeyFromShort f e.1 with
  | .ok key => R.insert lattice key.1 key.2 e.2
  | .error _ => lattice

/-- The entries of a rebuilt tree. -/
def shortLeaves (events : Enumeration EventId) (current : ShortState) : Leaves :=
  current.mapValues fun _ id => events.short id

def appendRebuild (s : Service R) (f : Faults) (room : RoomId) (key : NamedKey) (id : EventId)
    (base : Option Handle) : Service R × Except StateError (Handle × R.Node) :=
  match s.loadBase f room base (s.keys.short key) with
  | .error e => (s, .error e)
  | .ok map =>
    let current := map.insert (s.keys.short key) id
    let lattice := current.entries.foldl (s.putShort f) R.default
    let s := { s with events := s.events.numberAll (eventIds current) }
    match R.buildHamt (structuralKey room) (shortLeaves s.events current) with
    | .error e => (s, .error (.hamt ("Failed to build HAMT in append_to_state: " ++ e)))
    | .ok node =>
      let handle := R.fromLthash (R.structuralHash node) lattice
      let s := s.persistRootLattice handle lattice
      if f.durable then (s, .error (.database "Failed to check HAMT node durability in mtxdb"))
      else (s, .ok (handle, node))

def rebuildFrom (s : Service R) (f : Faults) (room : RoomId) (root : Option Handle) : Path Handle G :=
  match root with
  | some root => .rebuild (some root)
  | none =>
    match s.getRoomStateHamt f.pointerAgain room with
    | .ok root => .rebuild (some root)
    | .error (.notFound _) => .rebuild none
    | .error e => .refused e

def appendPath (s : Service R) (f : Faults) (room : RoomId) (root : Option Handle) : Service R × Path Handle G :=
  let base := match root with
    | some root => some root
    | none => (s.getRoomStateHamt f.pointer room).toOption
  match base with
  | none => (s, s.rebuildFrom f room root)
  | some base =>
    match s.getRootLattice f.lattice base with
    | (s, some lattice) => (s, .incremental base lattice)
    | (s, none) => (s, s.rebuildFrom f room root)

def appendToState (s : Service R) (f : Faults) (room : RoomId) (newPdu : Pdu) (root : Option Handle) :
    Service R × Except StateError (Handle × R.Node) :=
  match newPdu.stateKey with
  | none => (s, .error (.invalidParam "append_to_state called on non-state event"))
  | some stateKey =>
    let key : NamedKey := (newPdu.kind.asStr, stateKey)
    let s := { s with keys := s.keys.number key }
    match s.appendPath f room root with
    | (s, .incremental base lattice) => s.appendIncremental structuralKey f room key newPdu.eventId base lattice
    | (s, .rebuild base) => s.appendRebuild structuralKey f room key newPdu.eventId base
    | (s, .refused e) => (s, .error e)

/-! ## Resolving -/

def persistStateHamtMutations (s : Service R) (f : Faults) (room : RoomId) (prev : Handle)
    (mutations : List (Nat × Option Nat)) (lattice : G) : Service R × Except StateError (Handle × R.Node) :=
  match s.getNode f.nodes room (R.handleHash prev) with
  | .error e => (s, .error e)
  | .ok old =>
    match R.persistMutations old (structuralKey room) mutations with
    | .error e => (s, .error (.hamt ("HAMT batch mutation failed: " ++ e)))
    | .ok new =>
      if f.durable then (s, .error (.database "Failed to check HAMT node durability in mtxdb"))
      else
        let handle := R.fromLthash (R.structuralHash new) lattice
        (s.persistRootLattice handle lattice, .ok (handle, new))

/-- A state by its types and keys. A state key that cannot be looked up is left out. -/
def namedState (s : Service R) (f : Faults) : List (Σ _ : Nat, EventId) → NamedState
  | [] => ∅
  | e :: l =>
    match s.getStatekeyFromShort f e.1 with
    | .ok key => (s.namedState f l).insert key e.2
    | .error _ => s.namedState f l

def latticeOfNamed (R : Rezzy SKey Hash Handle G) (state : NamedState) : G :=
  state.entries.foldl (fun lattice e => R.insert lattice e.1.1 e.1.2 e.2) R.default

def changedEntries (s : Service R) (previous state : NamedState) : List (Nat × Option Nat) :=
  (state.entries.filter fun e => previous.lookup e.1 ≠ some e.2).map fun e =>
    (s.keys.short e.1, some (s.events.short e.2))

def droppedEntries (s : Service R) (previous state : NamedState) : List (Nat × Option Nat) :=
  (previous.entries.filter fun e => state.lookup e.1 = none).map fun e => (s.keys.short e.1, none)

variable (stateResolution : RoomId → List NamedState → Except StateError NamedState)

def resolveState (s : Service R) (f : Faults) (room : RoomId) (incomingstate : ShortState) :
    Service R × Except StateError (Handle × R.Node) :=
  match s.getRoomStateHamt f.pointer room with
  | .error _ => (s, .error (.database ("No state for " ++ room)))
  | .ok currentRoot =>
    match s.getNode f.nodes room (R.handleHash currentRoot) with
    | .error e => (s, .error e)
    | .ok node =>
      match s.loadEventIds f (R.entries node).entries with
      | .error e => (s, .error e)
      | .ok currentstateIds =>
        let previous := s.namedState f currentstateIds.entries
        match stateResolution room [previous, s.namedState f incomingstate.entries] with
        | .error e => (s, .error e)
        | .ok state =>
          let s := { s with
            keys := (s.keys.numberAll state.keys).numberAll previous.keys
            events := s.events.numberAll (eventIds state) }
          s.persistStateHamtMutations structuralKey f room currentRoot
            (s.changedEntries previous state ++ s.droppedEntries previous state) (latticeOfNamed R state)

/-! ## Other writers -/

def storeNode (s : Service R) (room : RoomId) (node : R.Node) : Service R :=
  let nodes := Function.update (s.nodes room) (R.structuralHash node) (some node)
  { s with nodes := Function.update s.nodes room nodes }

def storeLattice (s : Service R) (root : Handle) (lattice : G) : Service R :=
  { s with stateHamtRootLattices :=
      Function.update s.stateHamtRootLattices (R.handleHash root) (some (R.toBytes lattice)) }

def namedLeaves (keys : Enumeration NamedKey) (events : Enumeration EventId) (state : NamedState) :
    List (Σ _ : Nat, Nat) := state.entries.map fun e => ⟨keys.short e.1, events.short e.2⟩

/-- A resolved state stored as a root, with its lattice (`rebuild_state.rs`) or without
(`state_at_incoming.rs`). -/
def storeState (s : Service R) (room : RoomId) (state : NamedState) (withLattice : Bool) : Service R :=
  let s := { s with
    keys := s.keys.numberAll state.keys
    events := s.events.numberAll (eventIds state) }
  match R.buildHamt (structuralKey room) (namedLeaves s.keys s.events state).toAList with
  | .error _ => s
  | .ok node =>
    let lattice := latticeOfNamed R state
    let s := s.storeNode room node
    if withLattice then s.storeLattice (R.fromLthash (R.structuralHash node) lattice) lattice else s

/-- An entry put into the lattice of merged roots, unless it cannot be looked up. -/
def putEntry (s : Service R) (f : Faults) (lattice : G) (e : Σ _ : Nat, Nat) : G :=
  match s.getStatekeyFromShort f e.1 with
  | .ok key =>
    match s.getEventidFromShort f e.2 with
    | .ok id => R.insert lattice key.1 key.2 id
    | .error _ => lattice
  | .error _ => lattice

def latticeForShortEntries (s : Service R) (f : Faults) (entries : List (Σ _ : Nat, Nat)) : G :=
  entries.foldl (s.putEntry f) R.default

/-- The union of roots that do not differ, stored as a root (`rebuild_state.rs`). -/
def mergeRoots (s : Service R) (f : Faults) (room : RoomId) (entries : Leaves) : Service R :=
  let lattice := s.latticeForShortEntries f entries.entries
  match R.buildHamt (structuralKey room) entries with
  | .error _ => s
  | .ok node => (s.storeNode room node).storeLattice (R.fromLthash (R.structuralHash node) lattice) lattice

end

end Service

/-! ## Steps -/

inductive Action (R : Rezzy SKey Hash Handle G) where
  | append (f : Faults) (room : RoomId) (newPdu : Pdu) (root : Option Handle)
  | resolve (f : Faults) (room : RoomId) (incomingstate : ShortState)
  /-- The nodes of a returned root. -/
  | publish (i : Nat)
  | setRoomState (room : RoomId) (root : Handle)
  | storeState (room : RoomId) (state : NamedState) (withLattice : Bool)
  | mergeRoots (f : Faults) (room : RoomId) (entries : Leaves)
  /-- A lattice is dropped from the cache. -/
  | evict (hash : Hash)

section
variable {R : Rezzy SKey Hash Handle G}

def giveBack (room : RoomId) (r : Service R × Except StateError (Handle × R.Node)) : Service R :=
  match r.2 with
  | .ok (root, node) => { r.1 with returned := r.1.returned ++ [(room, root, node)] }
  | .error _ => r.1

def Service.Numbered (s : Service R) (entries : List (Σ _ : Nat, Nat)) : Prop :=
  ∀ e ∈ entries, e.1 < s.keys.items.length ∧ e.2 < s.events.items.length

instance (s : Service R) (entries : List (Σ _ : Nat, Nat)) : Decidable (s.Numbered entries) :=
  inferInstanceAs (Decidable (∀ e ∈ entries, _ ∧ _))

variable [DecidableEq Hash] (structuralKey : RoomId → SKey)
  (stateResolution : RoomId → List NamedState → Except StateError NamedState)

def step (a : Action R) (s : Service R) : Option (Service R) :=
  match a with
  | .append f room newPdu root => some (giveBack room (s.appendToState structuralKey f room newPdu root))
  | .resolve f room incoming => some (giveBack room (s.resolveState structuralKey stateResolution f room incoming))
  | .publish i => s.returned[i]?.map fun (room, _, node) => s.storeNode room node
  | .setRoomState room root =>
    some { s with roomidRoothandle := Function.update s.roomidRoothandle room (some root) }
  | .storeState room state withLattice => some (s.storeState structuralKey room state withLattice)
  | .mergeRoots f room entries =>
    if s.Numbered entries.entries then some (s.mergeRoots structuralKey f room entries) else none
  | .evict hash => some { s with latticeCache := Function.update s.latticeCache hash none }

/-- No read but of a lattice or of a state key fails. -/
def Faults.Clean (f : Faults) : Prop := f.nodes = false ∧ f.durable = false ∧ ∀ n, f.eventId n = false

/-- No lookup of one of the state keys fails. -/
def Faults.Answers (f : Faults) (ks : List Nat) : Prop := ∀ k ∈ ks, f.stateKey k = false

/-- The state keys that a rebuild looks up: those of the tree it begins with, and the new one. -/
def Service.rebuildKeys (s : Service R) (room : RoomId) (key : NamedKey) (base : Option Handle) : List Nat :=
  s.keys.short key :: match base.bind fun root => s.nodes room (R.handleHash root) with
    | some node => (R.entries node).keys
    | none => []

/-- The short state keys that the call looks up are found. -/
def FindsKeys (a : Action R) (s : Service R) : Prop :=
  match a with
  | .append f room newPdu root => ∀ stateKey base,
    let key : NamedKey := (newPdu.kind.asStr, stateKey)
    let s := { s with keys := s.keys.number key }
    newPdu.stateKey = some stateKey → (s.appendPath f room root).2 = .rebuild base →
      f.Answers (s.rebuildKeys room key base)
  | .resolve f room _ => ∀ root node,
    s.roomidRoothandle room = some root → s.nodes room (R.handleHash root) = some node →
      f.Answers (R.entries node).keys
  | .mergeRoots f _ entries => f.Answers entries.keys ∧ ∀ e ∈ entries.entries, f.eventId e.2 = false
  | _ => True

end

end Congruent.RoomLattice
