import Congruent.Store
import Congruent.Machine

/-!
# Roots and nodes of room states (`mtxdb/src/state.rs`, `rooms/state_hamt/store.rs`)

A publication looks up the nodes of its tree one by one, and commits those that it did
not find together with the roots. A sweep reads the roots and their version, walks down
from them, and removes what it did not reach if the version is still the same. No
running service sweeps yet; the steps are those that the adapter documents for one.
-/

namespace Congruent.StateRoots

open Store

/-- The keys and the codecs of states. A node is named by the hash of its contents, so
the children of a name are given. -/
structure Hamt (Id Hash : Type) where
  roomStateCollectionId : Bytes → Id
  roomRootsCollectionId : Bytes → Id
  roomRootNodeId : Id
  eventRootNodeId : Bytes → Id
  hamtNodeId : Hash → Id
  children : Bytes → Hash → List Hash
  /-- The children in an encoded node of a room, if it has this hash. -/
  decodeVerified : Bytes → Bytes → Hash → Option (List Hash)
  rootHandleFromBytes : Bytes → Option Hash
  stateCollection_inj : ∀ {room room'}, roomStateCollectionId room = roomStateCollectionId room' → room = room'
  rootsCollection_inj : ∀ {room room'}, roomRootsCollectionId room = roomRootsCollectionId room' → room = room'
  collections_ne : ∀ {room room'}, roomStateCollectionId room ≠ roomRootsCollectionId room'
  decodeVerified_eq : ∀ {room bytes hash cs}, decodeVerified room bytes hash = some cs →
    bytes ≠ [] ∧ cs = children room hash
  rootHandle_ne : ∀ {bytes hash}, rootHandleFromBytes bytes = some hash → bytes ≠ []

/-! ## Trees -/

/-- A node in memory: one left in the store, or one with its encoding and children. -/
inductive NodeRef (Hash : Type) where
  | lazy (hash : Hash)
  | resolved (hash : Hash) (bytes : Bytes) (children : List (NodeRef Hash))

namespace NodeRef

variable {Id Hash : Type}

def hash : NodeRef Hash → Hash
  | lazy hash => hash
  | resolved hash _ _ => hash

mutual

/-- The nodes in memory, in the order in which they are persisted: children first. -/
def nodes : NodeRef Hash → List (Hash × Bytes)
  | lazy _ => []
  | resolved hash bytes children => nodesOf children ++ [(hash, bytes)]

def nodesOf : List (NodeRef Hash) → List (Hash × Bytes)
  | [] => []
  | child :: children => child.nodes ++ nodesOf children

end

mutual

def lazies : NodeRef Hash → List Hash
  | lazy hash => [hash]
  | resolved _ _ children => laziesOf children

def laziesOf : List (NodeRef Hash) → List Hash
  | [] => []
  | child :: children => child.lazies ++ laziesOf children

end

/-- Every node in memory is encoded as it should be. -/
inductive WellFormed (H : Hamt Id Hash) (room : Bytes) : NodeRef Hash → Prop where
  | lazy (hash : Hash) : WellFormed H room (.lazy hash)
  | resolved {hash : Hash} {bytes : Bytes} {children : List (NodeRef Hash)}
    (encoded : H.decodeVerified room bytes hash = some (children.map NodeRef.hash))
    (below : ∀ child ∈ children, WellFormed H room child) : WellFormed H room (.resolved hash bytes children)

theorem nodesOf_eq (children : List (NodeRef Hash)) : nodesOf children = children.flatMap nodes := by
  induction children with
  | nil => rfl
  | cons child children ih => rw [nodesOf, List.flatMap_cons, ih]

theorem laziesOf_eq (children : List (NodeRef Hash)) : laziesOf children = children.flatMap lazies := by
  induction children with
  | nil => rfl
  | cons child children ih => rw [laziesOf, List.flatMap_cons, ih]

end NodeRef

section
variable {Id Hash : Type} (H : Hamt Id Hash)

/-- A node that is found going down from another. -/
abbrev Below (room : Bytes) (root hash : Hash) : Prop :=
  Relation.ReflTransGen (fun a b => b ∈ H.children room a) root hash

variable {H}

theorem NodeRef.WellFormed.covers {room : Bytes} {hash : Hash} : ∀ {tree : NodeRef Hash}, tree.WellFormed H room →
    Below H room tree.hash hash → hash ∈ tree.nodes.map Prod.fst ∨ ∃ l ∈ tree.lazies, Below H room l hash := by
  intro tree htree
  induction htree with
  | lazy l => exact fun h => .inr ⟨l, by simp [lazies], h⟩
  | @resolved root bytes children encoded below ih =>
    intro h
    rcases h.cases_head with rfl | ⟨c, hc, hbelow⟩
    · exact .inl (by simp [nodes, NodeRef.hash])
    · rw [NodeRef.hash, ← (H.decodeVerified_eq encoded).2, List.mem_map] at hc
      obtain ⟨child, hchild, rfl⟩ := hc
      rcases ih child hchild hbelow with hmem | ⟨l, hl, hb⟩
      · obtain ⟨node, hnode, rfl⟩ := List.mem_map.mp hmem
        refine .inl (List.mem_map_of_mem (List.mem_append_left _ ?_))
        rw [nodesOf_eq]
        exact List.mem_flatMap.mpr ⟨child, hchild, hnode⟩
      · refine .inr ⟨l, ?_, hb⟩
        rw [lazies, laziesOf_eq]
        exact List.mem_flatMap.mpr ⟨child, hchild, hl⟩

theorem NodeRef.WellFormed.encoded {room : Bytes} {node : Hash × Bytes} {tree : NodeRef Hash}
    (h : tree.WellFormed H room) (hnode : node ∈ tree.nodes) : node.2 ≠ [] := by
  induction h with
  | lazy l => simp [nodes] at hnode
  | @resolved root bytes children encoded below ih =>
    rw [nodes, nodesOf_eq, List.mem_append, List.mem_singleton] at hnode
    rcases hnode with hnode | rfl
    · obtain ⟨child, hchild, hnode⟩ := List.mem_flatMap.mp hnode
      exact ih child hchild hnode
    · exact (H.decodeVerified_eq encoded).1

end

/-! ## Publications and sweeps -/

section
variable {Id Hash : Type}

/-- The state to publish in a room: its tree, the root as it is written, the events that
get it, and whether it is the current state of the room. -/
structure Update (H : Hamt Id Hash) (room : Bytes) where
  tree : NodeRef Hash
  rootBytes : Bytes
  eventIds : List Bytes
  isRoomRoot : Bool
  wellFormed : tree.WellFormed H room
  root_eq : H.rootHandleFromBytes rootBytes = some tree.hash

/-- A publication, with the nodes it has yet to look up and those it is to write. -/
structure Publication (H : Hamt Id Hash) where
  room : Bytes
  update : Update H room
  todo : List (Hash × Bytes)
  pending : List (Hash × Bytes)

inductive Phase (Id Hash : Type) where
  | start
  | versioned (version : Nat)
  | walking (version : Nat) (stack seen : List Hash)
  | listed (version : Nat) (seen : List Hash) (stored : List Id)
  | ready (version : Nat) (orphans : List Id)

inductive Task (H : Hamt Id Hash) where
  | publication (p : Publication H)
  | sweep (room : Bytes) (phase : Phase Id Hash)
  | done

variable [DecidableEq Id] {E : Engine Id} (H : Hamt Id Hash)

structure State (E : Engine Id) (H : Hamt Id Hash) where
  db : E.Db
  tasks : List (Task H)

def nodeRecord (room : Bytes) (hash : Hash) : Record Id := ⟨.state, H.roomStateCollectionId room, H.hamtNodeId hash⟩

def rootRecord (room : Bytes) (node : Id) : Record Id := ⟨.state, H.roomRootsCollectionId room, node⟩

def isDurable (E : Engine Id) (db : E.Db) (room : Bytes) (hash : Hash) : Bool :=
  (E.get db (nodeRecord H room hash)).isSome

def readNodeVerified (E : Engine Id) (db : E.Db) (room : Bytes) (hash : Hash) : Option (List Hash) :=
  (E.get db (nodeRecord H room hash)).bind fun bytes => H.decodeVerified room bytes hash

def rootsVersion (E : Engine Id) (db : E.Db) (room : Bytes) : Nat :=
  E.version db .state (H.roomRootsCollectionId room)

def nodeWrites (room : Bytes) (nodes : List (Hash × Bytes)) : List (Record Id × Bytes) :=
  nodes.map fun n => (nodeRecord H room n.1, n.2)

def rootWrites (room : Bytes) (rootBytes : Bytes) (eventIds : List Bytes) (isRoomRoot : Bool) :
    List (Record Id × Bytes) :=
  eventIds.map (fun e => (rootRecord H room (H.eventRootNodeId e), rootBytes)) ++
    if isRoomRoot then [(rootRecord H room H.roomRootNodeId, rootBytes)] else []

/-- `publish_roots_update`. -/
def publishTx (p : Publication H) : Transaction Id :=
  Transaction.begin.putMany (nodeWrites H p.room p.pending ++
    rootWrites H p.room p.update.rootBytes p.update.eventIds p.update.isRoomRoot)

/-- `publish_nodes`. -/
def nodesTx (p : Publication H) : Transaction Id := Transaction.begin.putMany (nodeWrites H p.room p.pending)

/-- `remove_nodes` and `expect_roots_unchanged`. -/
def sweepTx (room : Bytes) (version : Nat) (orphans : List Id) : Transaction Id :=
  (Transaction.begin.expectCollectionVersion .state (H.roomRootsCollectionId room) version).removeMany
    (orphans.map fun node => ⟨.state, H.roomStateCollectionId room, node⟩)

def committed (db : E.Db) (tx : Transaction Id) : Task H × E.Db :=
  match E.commit db tx with
  | .ok db' => (.done, db')
  | .error _ => (.done, db)

def Publication.next (db : E.Db) (p : Publication H) : Task H × E.Db :=
  match p.todo with
  | node :: todo =>
    if isDurable H E db p.room node.1 then (.publication { p with todo := todo }, db)
    else (.publication { p with todo := todo, pending := p.pending ++ [node] }, db)
  | [] => committed H db (publishTx H p)

/-- Writes the pending nodes ahead of their root. -/
def Publication.flush (db : E.Db) (p : Publication H) : Task H × E.Db :=
  if p.pending.isEmpty then (.publication p, db)
  else
    match E.commit db (nodesTx H p) with
    | .ok db' => (.publication { p with pending := [] }, db')
    | .error _ => (.done, db)

/-- The next step of a sweep; one that cannot trust what it finds is given up. -/
def sweepNext [DecidableEq Hash] (scan : Scan E) (db : E.Db) (room : Bytes) : Phase Id Hash → Task H × E.Db
  | .start => (.sweep room (.versioned (rootsVersion H E db room)), db)
  | .versioned version =>
    match ((scan.scan db .state (H.roomRootsCollectionId room)).mapM fun r => H.rootHandleFromBytes r.2) with
    | some (handle :: handles) => (.sweep room (.walking version (handle :: handles) []), db)
    | _ => (.done, db)
  | .walking version (hash :: stack) seen =>
    if hash ∈ seen then (.sweep room (.walking version stack seen), db)
    else
      match readNodeVerified H E db room hash with
      | some children => (.sweep room (.walking version (children ++ stack) (hash :: seen)), db)
      | none => (.done, db)
  | .walking version [] seen =>
    (.sweep room (.listed version seen ((scan.scan db .state (H.roomStateCollectionId room)).map Prod.fst)), db)
  | .listed version seen stored =>
    if rootsVersion H E db room ≠ version then (.done, db)
    else (.sweep room (.ready version (stored.filter fun node => node ∉ seen.map H.hamtNodeId)), db)
  | .ready version orphans => committed H db (sweepTx H room version orphans)

inductive Action (H : Hamt Id Hash) where
  | publish (room : Bytes) (update : Update H room)
  | sweep (room : Bytes)
  | run (i : Nat)
  | flush (i : Nat)
  | fail (i : Nat)

def taskNext [DecidableEq Hash] (scan : Scan E) (db : E.Db) : Task H → Task H × E.Db
  | .publication p => p.next H db
  | .sweep room phase => sweepNext H scan db room phase
  | .done => (.done, db)

def step [DecidableEq Hash] (scan : Scan E) : Action H → State E H → Option (State E H)
  | .publish room update, s =>
    some { s with tasks := s.tasks ++ [.publication ⟨room, update, update.tree.nodes, []⟩] }
  | .sweep room, s => some { s with tasks := s.tasks ++ [.sweep room .start] }
  | .run i, s => do
    let t ← s.tasks[i]?
    let r := taskNext H scan s.db t
    some ⟨r.2, s.tasks.set i r.1⟩
  | .flush i, s => do
    let t ← s.tasks[i]?
    match t with
    | .publication p =>
      let r := p.flush H s.db
      some ⟨r.2, s.tasks.set i r.1⟩
    | _ => none
  | .fail i, s => do
    let _ ← s.tasks[i]?
    some { s with tasks := s.tasks.set i .done }

/-! ## What holds in every state -/

def Rooted (E : Engine Id) (db : E.Db) : Prop :=
  ∀ room node bytes root hash, E.get db (rootRecord H room node) = some bytes →
    H.rootHandleFromBytes bytes = some root → Below H room root hash → isDurable H E db room hash = true

variable {H}

/-- A publication will not write this node with its root: it found it or wrote it ahead,
or the node is below one that was left in the store. -/
def Publication.ReliesOn (p : Publication H) (hash : Hash) : Prop :=
  (∃ l ∈ p.update.tree.lazies, Below H p.room l hash) ∨
    (hash ∈ p.update.tree.nodes.map Prod.fst ∧ hash ∉ p.todo.map Prod.fst ∧ hash ∉ p.pending.map Prod.fst)

structure Publication.Sound (E : Engine Id) (db : E.Db) (p : Publication H) : Prop where
  relied : ∀ hash, p.ReliesOn hash → isDurable H E db p.room hash = true
  encoded : ∀ n, n ∈ p.pending ∨ n ∈ p.todo → n.2 ≠ []

variable (H)

/-- Where a walk has got to: a root, or a child of a node seen, is seen or to be visited. -/
structure Marks (E : Engine Id) (db : E.Db) (room : Bytes) (stack seen : List Hash) : Prop where
  roots : ∀ node bytes root, E.get db (rootRecord H room node) = some bytes →
    H.rootHandleFromBytes bytes = some root → root ∈ seen ∨ root ∈ stack
  children : ∀ hash ∈ seen, ∀ c ∈ H.children room hash, c ∈ seen ∨ c ∈ stack

def Unrooted (E : Engine Id) (db : E.Db) (room : Bytes) (orphans : List Id) : Prop :=
  ∀ node bytes root hash, E.get db (rootRecord H room node) = some bytes →
    H.rootHandleFromBytes bytes = some root → Below H room root hash → H.hamtNodeId hash ∉ orphans

def sweepSound (E : Engine Id) (db : E.Db) (room : Bytes) : Phase Id Hash → Prop
  | .start => True
  | .versioned version => version ≤ rootsVersion H E db room
  | .walking version stack seen =>
    version ≤ rootsVersion H E db room ∧ (rootsVersion H E db room = version → Marks H E db room stack seen)
  | .listed version seen _ =>
    version ≤ rootsVersion H E db room ∧ (rootsVersion H E db room = version → Marks H E db room [] seen)
  | .ready version orphans =>
    version ≤ rootsVersion H E db room ∧ (rootsVersion H E db room = version → Unrooted H E db room orphans)

variable {H}

def Task.Sound (E : Engine Id) (db : E.Db) : Task H → Prop
  | .publication p => p.Sound E db
  | .sweep room phase => sweepSound H E db room phase
  | .done => True

structure Sound (s : State E H) : Prop where
  rooted : Rooted H E s.db
  tasks : ∀ t ∈ s.tasks, t.Sound E s.db

/-- A publication starts where what it leaves in the store is stored, and a sweep does
not remove what a publication under way relies on. -/
def Undisturbed : Action H → State E H → Prop
  | .publish room update, s =>
    ∀ l ∈ update.tree.lazies, ∀ hash, Below H room l hash → isDurable H E s.db room hash = true
  | .run i, s => ∀ room version orphans, s.tasks[i]? = some (.sweep room (.ready version orphans)) →
    rootsVersion H E s.db room = version → ∀ p, .publication p ∈ s.tasks → p.room = room →
      ∀ hash, p.ReliesOn hash → H.hamtNodeId hash ∉ orphans
  | _, _ => True

variable {db db' : E.Db} {room : Bytes}

/-! ### Sweeps -/

theorem Marks.below {seen : List Hash} (h : Marks H E db room [] seen) {root hash : Hash} (hroot : root ∈ seen)
    (hbelow : Below H room root hash) : hash ∈ seen := by
  induction hbelow with
  | refl => exact hroot
  | tail _ hc ih => simpa using h.children _ ih _ hc

theorem Marks.unrooted {seen : List Hash} (h : Marks H E db room [] seen) (stored : List Id) :
    Unrooted H E db room (stored.filter fun node => node ∉ seen.map H.hamtNodeId) := by
  intro node bytes root hash hget hroot hbelow horphan
  have hseen : hash ∈ seen := h.below (by simpa using h.roots node bytes root hget hroot) hbelow
  have hnot : H.hamtNodeId hash ∉ seen.map H.hamtNodeId := by simpa using (List.mem_filter.mp horphan).2
  exact hnot (List.mem_map_of_mem hseen)

def SameRoots (H : Hamt Id Hash) (E : Engine Id) (db db' : E.Db) (room : Bytes) : Prop :=
  rootsVersion H E db room ≤ rootsVersion H E db' room ∧
    (rootsVersion H E db' room = rootsVersion H E db room →
      ∀ node, E.get db' (rootRecord H room node) = E.get db (rootRecord H room node))

theorem sameRoots_of_commit {tx : Transaction Id} (h : E.commit db tx = .ok db') (room : Bytes) :
    SameRoots H E db db' room := ⟨E.version_le h, fun heq node => E.version_eq h heq node⟩

theorem SameRoots.asOf (h : SameRoots H E db db' room) {version : Nat} {P P' : Prop}
    (hP : (∀ node, E.get db' (rootRecord H room node) = E.get db (rootRecord H room node)) → P → P')
    (hv : version ≤ rootsVersion H E db room ∧ (rootsVersion H E db room = version → P)) :
    version ≤ rootsVersion H E db' room ∧ (rootsVersion H E db' room = version → P') := by
  refine ⟨Nat.le_trans hv.1 h.1, fun heq => ?_⟩
  have hle := h.1
  have hsame : rootsVersion H E db room = version := by omega
  exact hP (h.2 (by omega)) (hv.2 hsame)

theorem Marks.congr {stack seen : List Hash} (h : Marks H E db room stack seen)
    (heq : ∀ node, E.get db' (rootRecord H room node) = E.get db (rootRecord H room node)) :
    Marks H E db' room stack seen :=
  ⟨fun node bytes root hget => h.roots node bytes root (heq node ▸ hget), h.children⟩

theorem sweepSound_of_commit {tx : Transaction Id} (hcommit : E.commit db tx = .ok db') {phase : Phase Id Hash}
    (h : sweepSound H E db room phase) : sweepSound H E db' room phase := by
  have hroots := sameRoots_of_commit (H := H) hcommit room
  cases phase with
  | start => trivial
  | versioned version => exact Nat.le_trans h hroots.1
  | walking version stack seen => exact hroots.asOf (fun heq hm => hm.congr heq) h
  | listed version seen stored => exact hroots.asOf (fun heq hm => hm.congr heq) h
  | ready version orphans =>
    exact hroots.asOf (fun heq hu node bytes root hash hget => hu node bytes root hash (heq node ▸ hget)) h

theorem mapM_some {α β : Type} {f : α → Option β} {l : List α} {r : List β} (h : l.mapM f = some r) {a : α}
    (ha : a ∈ l) : ∃ b ∈ r, f a = some b := by
  induction l generalizing r with
  | nil => cases ha
  | cons x l ih =>
    rw [List.mapM_cons] at h
    obtain ⟨y, hy, h⟩ := Option.bind_eq_some_iff.mp h
    obtain ⟨ys, hys, h⟩ := Option.bind_eq_some_iff.mp h
    cases h
    rcases List.mem_cons.mp ha with rfl | ha
    · exact ⟨y, List.mem_cons_self, hy⟩
    · obtain ⟨b, hb, hfb⟩ := ih hys ha
      exact ⟨b, List.mem_cons_of_mem _ hb, hfb⟩

theorem mem_of_mapM {α β : Type} {f : α → Option β} {l : List α} {r : List β}
    (h : l.mapM f = some r) {a : α} {b : β}
    (ha : a ∈ l) (hb : f a = some b) : b ∈ r := by
  obtain ⟨b', hb', hfb⟩ := mapM_some h ha
  rw [hfb, Option.some.injEq] at hb
  exact hb ▸ hb'

theorem marks_of_scan {scan : Scan E} {handles : List Hash}
    (h : (scan.scan db .state (H.roomRootsCollectionId room)).mapM (fun r => H.rootHandleFromBytes r.2) =
      some handles) : Marks H E db room handles [] := by
  refine ⟨fun node bytes root hget hroot => .inr ?_, fun hash hh => by cases hh⟩
  exact mem_of_mapM h (scan.mem_scan.mpr hget) hroot

theorem Marks.skip {hash : Hash} {stack seen : List Hash} (h : Marks H E db room (hash :: stack) seen)
    (hseen : hash ∈ seen) : Marks H E db room stack seen := by
  have hdrop : ∀ x, x ∈ seen ∨ x ∈ hash :: stack → x ∈ seen ∨ x ∈ stack := by
    rintro x (hx | hx)
    · exact .inl hx
    · rcases List.mem_cons.mp hx with rfl | hx
      · exact .inl hseen
      · exact .inr hx
  exact ⟨fun node bytes root hget hroot => hdrop _ (h.roots node bytes root hget hroot),
    fun x hx c hc => hdrop _ (h.children x hx c hc)⟩

theorem Marks.visit {hash : Hash} {stack seen : List Hash} (h : Marks H E db room (hash :: stack) seen) :
    Marks H E db room (H.children room hash ++ stack) (hash :: seen) := by
  have hmove : ∀ x, x ∈ seen ∨ x ∈ hash :: stack → x ∈ hash :: seen ∨ x ∈ H.children room hash ++ stack := by
    rintro x (hx | hx)
    · exact .inl (List.mem_cons_of_mem _ hx)
    · rcases List.mem_cons.mp hx with rfl | hx
      · exact .inl List.mem_cons_self
      · exact .inr (List.mem_append_right _ hx)
  refine ⟨fun node bytes root hget hroot => hmove _ (h.roots node bytes root hget hroot), fun x hx c hc => ?_⟩
  rcases List.mem_cons.mp hx with rfl | hx
  · exact .inr (List.mem_append_left _ hc)
  · exact hmove _ (h.children x hx c hc)

theorem readNodeVerified_eq {hash : Hash} {cs : List Hash} (h : readNodeVerified H E db room hash = some cs) :
    cs = H.children room hash := by
  obtain ⟨bytes, -, hdecode⟩ := Option.bind_eq_some_iff.mp h
  exact (H.decodeVerified_eq hdecode).2

theorem sweepNext_sound [DecidableEq Hash] (scan : Scan E) {phase : Phase Id Hash}
    (h : sweepSound H E db room phase)
    (hready : ∀ version orphans, phase ≠ .ready version orphans) :
    (sweepNext H scan db room phase).2 = db ∧ (sweepNext H scan db room phase).1.Sound E db := by
  cases phase with
  | start => exact ⟨rfl, Nat.le_refl _⟩
  | versioned version =>
    simp only [sweepNext]
    split
    · rename_i hmap
      exact ⟨rfl, h, fun _ => marks_of_scan hmap⟩
    · exact ⟨rfl, trivial⟩
  | walking version stack seen =>
    cases stack with
    | nil => exact ⟨rfl, h⟩
    | cons hash stack =>
      simp only [sweepNext]
      split
      · rename_i hseen
        exact ⟨rfl, h.1, fun heq => (h.2 heq).skip hseen⟩
      · split
        · rename_i cs hread
          rw [readNodeVerified_eq hread]
          exact ⟨rfl, h.1, fun heq => (h.2 heq).visit⟩
        · exact ⟨rfl, trivial⟩
  | listed version seen stored =>
    simp only [sweepNext]
    split
    · exact ⟨rfl, trivial⟩
    · exact ⟨rfl, h.1, fun heq => (h.2 heq).unrooted stored⟩
  | ready version orphans => exact absurd rfl (hready version orphans)

/-! ### Publications -/

/-- No record is gone. -/
def Grows (E : Engine Id) (db db' : E.Db) : Prop := ∀ r, (E.get db r).isSome = true → (E.get db' r).isSome = true

theorem Publication.Sound.mono {p : Publication H} (h : p.Sound E db) (hkept : ∀ hash, p.ReliesOn hash →
    isDurable H E db p.room hash = true → isDurable H E db' p.room hash = true) : p.Sound E db' :=
  ⟨fun hash hr => hkept hash hr (h.relied hash hr), h.encoded⟩

theorem Publication.Sound.found {p : Publication H} {node : Hash × Bytes} {todo : List (Hash × Bytes)}
    (h : p.Sound E db) (htodo : p.todo = node :: todo) (hfound : isDurable H E db p.room node.1 = true) :
    Publication.Sound E db { p with todo := todo } := by
  refine ⟨fun hash hr => ?_, fun n hn => ?_⟩
  · rcases hr with hl | ⟨hn, ht, hp⟩
    · exact h.relied hash (.inl hl)
    · by_cases heq : hash = node.1
      · exact heq ▸ hfound
      · refine h.relied hash (.inr ⟨hn, fun hmem => ?_, hp⟩)
        rw [htodo, List.map_cons] at hmem
        rcases List.mem_cons.mp hmem with rfl | hmem
        · exact heq rfl
        · exact ht hmem
  · refine h.encoded n (hn.imp_right fun hn => ?_)
    rw [htodo]
    exact List.mem_cons_of_mem _ hn

theorem Publication.Sound.missed {p : Publication H} {node : Hash × Bytes} {todo : List (Hash × Bytes)}
    (h : p.Sound E db) (htodo : p.todo = node :: todo) :
    Publication.Sound E db { p with todo := todo, pending := p.pending ++ [node] } := by
  refine ⟨fun hash hr => ?_, fun n hn => ?_⟩
  · rcases hr with hl | ⟨hn, ht, hp⟩
    · exact h.relied hash (.inl hl)
    · simp only [List.map_append, List.mem_append, not_or, List.map_cons, List.map_nil, List.mem_singleton] at hp
      refine h.relied hash (.inr ⟨hn, ?_, hp.1⟩)
      rw [htodo, List.map_cons, List.mem_cons, not_or]
      exact ⟨hp.2, ht⟩
  · apply h.encoded
    rw [htodo, List.mem_cons]
    rcases hn with hn | hn
    · rcases List.mem_append.mp hn with hn | hn
      · exact .inl hn
      · exact .inr (.inl (List.mem_singleton.mp hn))
    · exact .inr (.inr hn)

theorem grows_of_commit {writes : List (Record Id × Bytes)}
    (h : E.commit db (Transaction.begin.putMany writes) = .ok db')
    (hne : ∀ w ∈ writes, w.2 ≠ []) : Grows E db db' := by
  intro r hr
  rcases E.get_of_putMany h hne r with ⟨data, -, hget⟩ | ⟨-, hget⟩
  · rw [hget]
    rfl
  · rwa [hget]

theorem written_of_commit {writes : List (Record Id × Bytes)}
    (h : E.commit db (Transaction.begin.putMany writes) = .ok db') (hne : ∀ w ∈ writes, w.2 ≠ [])
    {w : Record Id × Bytes} (hw : w ∈ writes) : (E.get db' w.1).isSome = true := by
  rcases E.get_of_putMany h hne w.1 with ⟨data, -, hget⟩ | ⟨hnot, -⟩
  · rw [hget]
    rfl
  · exact absurd hw (hnot w.2)

theorem Publication.Sound.nodeWrites_ne {p : Publication H} (h : p.Sound E db) :
    ∀ w ∈ nodeWrites H p.room p.pending, w.2 ≠ [] := by
  intro w hw
  obtain ⟨n, hn, rfl⟩ := List.mem_map.mp hw
  exact h.encoded n (.inl hn)

omit [DecidableEq Id] in
theorem rootRecord_ne_nodeRecord {room' : Bytes} {node : Id} {hash : Hash} :
    rootRecord H room node ≠ nodeRecord H room' hash := by
  intro h
  exact H.collections_ne (Record.mk.inj h).2.1.symm

omit [DecidableEq Id] in
theorem mem_rootWrites {rootBytes bytes : Bytes} {eventIds : List Bytes} {isRoomRoot : Bool}
    {room' : Bytes} {node : Id}
    (h : (rootRecord H room' node, bytes) ∈ rootWrites H room rootBytes eventIds isRoomRoot) :
    room' = room ∧ bytes = rootBytes := by
  unfold rootWrites at h
  rcases List.mem_append.mp h with h | h
  · obtain ⟨e, -, hpair⟩ := List.mem_map.mp h
    obtain ⟨hr, rfl⟩ := Prod.mk.inj hpair
    exact ⟨(H.rootsCollection_inj (Record.mk.inj hr).2.1).symm, rfl⟩
  · split at h
    · obtain ⟨hr, rfl⟩ := Prod.mk.inj (List.mem_singleton.mp h)
      exact ⟨H.rootsCollection_inj (Record.mk.inj hr).2.1, rfl⟩
    · cases h

omit [DecidableEq Id] in
theorem rootBytes_ne {w : Record Id × Bytes} (u : Update H room)
    (h : w ∈ rootWrites H room u.rootBytes u.eventIds u.isRoomRoot) : w.2 ≠ [] := by
  have hbytes : w.2 = u.rootBytes := by
    unfold rootWrites at h
    rcases List.mem_append.mp h with h | h
    · obtain ⟨e, -, rfl⟩ := List.mem_map.mp h
      rfl
    · split at h
      · rw [List.mem_singleton.mp h]
      · cases h
  rw [hbytes]
  exact H.rootHandle_ne u.root_eq

theorem Publication.Sound.below {p : Publication H} (h : p.Sound E db) (htodo : p.todo = []) {hash : Hash}
    (hbelow : Below H p.room p.update.tree.hash hash) :
    isDurable H E db p.room hash = true ∨ ∃ n ∈ p.pending, n.1 = hash := by
  by_cases hp : hash ∈ p.pending.map Prod.fst
  · obtain ⟨n, hn, rfl⟩ := List.mem_map.mp hp
    exact .inr ⟨n, hn, rfl⟩
  · refine .inl (h.relied hash ?_)
    rcases p.update.wellFormed.covers hbelow with hn | hl
    · exact .inr ⟨hn, by simp [htodo], hp⟩
    · exact .inl hl

theorem Publication.Sound.publish {p : Publication H} (h : p.Sound E db) (htodo : p.todo = [])
    (hrooted : Rooted H E db)
    (hcommit : E.commit db (publishTx H p) = .ok db') : Rooted H E db' ∧ Grows E db db' := by
  have hne : ∀ w ∈ nodeWrites H p.room p.pending ++
      rootWrites H p.room p.update.rootBytes p.update.eventIds p.update.isRoomRoot, w.2 ≠ [] := by
    intro w hw
    rcases List.mem_append.mp hw with hw | hw
    · exact h.nodeWrites_ne w hw
    · exact rootBytes_ne p.update hw
  have hgrows := grows_of_commit hcommit hne
  refine ⟨fun room node bytes root hash hget hroot hbelow => ?_, hgrows⟩
  -- the root is the published one, or was there before
  rcases E.get_of_putMany hcommit hne (rootRecord H room node) with ⟨data, hmem, hdata⟩ | ⟨-, hsame⟩
  · rw [hdata, Option.some.injEq] at hget
    subst hget
    rcases List.mem_append.mp hmem with hmem | hmem
    · obtain ⟨n, -, hpair⟩ := List.mem_map.mp hmem
      exact absurd (Prod.mk.inj hpair).1.symm rootRecord_ne_nodeRecord
    · obtain ⟨rfl, rfl⟩ := mem_rootWrites hmem
      rw [p.update.root_eq, Option.some.injEq] at hroot
      subst hroot
      rcases h.below htodo hbelow with hstored | ⟨n, hn, rfl⟩
      · exact hgrows _ hstored
      · exact written_of_commit hcommit hne (List.mem_append_left _ (List.mem_map_of_mem hn))
  · rw [hsame] at hget
    exact hgrows _ (hrooted room node bytes root hash hget hroot hbelow)

theorem Publication.Sound.flush {p : Publication H} (h : p.Sound E db) (hrooted : Rooted H E db)
    (hcommit : E.commit db (nodesTx H p) = .ok db') :
    Rooted H E db' ∧ Grows E db db' ∧ Publication.Sound E db' { p with pending := [] } := by
  have hgrows := grows_of_commit hcommit h.nodeWrites_ne
  refine ⟨fun room node bytes root hash hget hroot hbelow => ?_, hgrows, fun hash hr => ?_, fun n hn => ?_⟩
  · rcases E.get_of_putMany hcommit h.nodeWrites_ne (rootRecord H room node) with ⟨data, hmem, -⟩ | ⟨-, hsame⟩
    · obtain ⟨n, -, hpair⟩ := List.mem_map.mp hmem
      exact absurd (Prod.mk.inj hpair).1.symm rootRecord_ne_nodeRecord
    · rw [hsame] at hget
      exact hgrows _ (hrooted room node bytes root hash hget hroot hbelow)
  · by_cases hp : hash ∈ p.pending.map Prod.fst
    · obtain ⟨n, hn, rfl⟩ := List.mem_map.mp hp
      exact written_of_commit hcommit h.nodeWrites_ne (List.mem_map_of_mem hn)
    · exact hgrows _ (h.relied hash (hr.imp_right fun hr => ⟨hr.1, hr.2.1, hp⟩))
  · exact h.encoded n (hn.imp_left fun hn => by cases hn)

theorem durable_of_sweep {version : Nat} {orphans : List Id} {room' : Bytes} {hash : Hash}
    (hcommit : E.commit db (sweepTx H room version orphans) = .ok db')
    (hkept : room' = room → H.hamtNodeId hash ∉ orphans) (h : isDurable H E db room' hash = true) :
    isDurable H E db' room' hash = true := by
  unfold isDurable
  rw [E.get_of_removeMany rfl hcommit, if_neg]
  · exact h
  · intro hmem
    obtain ⟨node, hnode, hr⟩ := List.mem_map.mp hmem
    obtain ⟨-, hcoll, rfl⟩ := Record.mk.inj hr
    exact hkept (H.stateCollection_inj hcoll).symm hnode

theorem Rooted.sweep {version : Nat} {orphans : List Id} (hrooted : Rooted H E db)
    (h : sweepSound H E db room (.ready version orphans))
    (hcommit : E.commit db (sweepTx H room version orphans) = .ok db') :
    rootsVersion H E db room = version ∧ Rooted H E db' := by
  -- the commit went through, so the roots are those that the sweep read
  have hversion : rootsVersion H E db room = version := by
    refine E.commit_expected hcommit ((.state, H.roomRootsCollectionId room), version) ?_
    rw [sweepTx, Transaction.expected_removeMany]
    exact List.mem_cons_self
  refine ⟨hversion, fun room' node bytes root hash hget hroot hbelow => ?_⟩
  have hsame : E.get db' (rootRecord H room' node) = E.get db (rootRecord H room' node) := by
    rw [E.get_of_removeMany rfl hcommit, if_neg]
    intro hmem
    obtain ⟨node', -, hr⟩ := List.mem_map.mp hmem
    exact H.collections_ne (Record.mk.inj hr).2.1
  rw [hsame] at hget
  refine durable_of_sweep hcommit ?_ (hrooted room' node bytes root hash hget hroot hbelow)
  rintro rfl
  exact h.2 hversion node bytes root hash hget hroot hbelow

/-! ### Steps -/

theorem Task.Sound.grows {t : Task H} {tx : Transaction Id} (h : t.Sound E db) (hcommit : E.commit db tx = .ok db')
    (hgrows : Grows E db db') : t.Sound E db' := by
  cases t with
  | publication p => exact Publication.Sound.mono h fun hash _ hd => hgrows _ hd
  | sweep room phase => exact sweepSound_of_commit hcommit h
  | done => trivial

variable {s s' : State E H} {i : Nat} {t new : Task H}

theorem Sound.set (h : Sound s) (hi : s.tasks[i]? = some t) (hrooted : Rooted H E db')
    (hothers : ∀ t ∈ s.tasks, t.Sound E s.db → t.Sound E db') (hnew : new.Sound E db') :
    Sound ⟨db', s.tasks.set i new⟩ := by
  refine ⟨hrooted, fun t' ht' => ?_⟩
  rcases mem_set_of_some hi ht' with rfl | ⟨j, -, hj⟩
  · exact hnew
  · have hmem := List.mem_of_getElem? hj
    exact hothers t' hmem (h.tasks t' hmem)

theorem Sound.append (h : Sound s) (hnew : new.Sound E s.db) : Sound { s with tasks := s.tasks ++ [new] } := by
  refine ⟨h.rooted, fun t ht => ?_⟩
  rcases List.mem_append.mp ht with ht | ht
  · exact h.tasks t ht
  · rw [List.mem_singleton.mp ht]
    exact hnew

theorem Sound.committed {tx : Transaction Id} (h : Sound s) (hi : s.tasks[i]? = some t)
    (hcommit : ∀ db', E.commit s.db tx = .ok db' →
      Rooted H E db' ∧ ∀ t ∈ s.tasks, t.Sound E s.db → t.Sound E db') :
    Sound ⟨(committed H s.db tx).2, s.tasks.set i (committed H s.db tx).1⟩ := by
  unfold StateRoots.committed
  split
  · rename_i db' hok
    exact h.set hi (hcommit db' hok).1 (hcommit db' hok).2 trivial
  · exact h.set hi h.rooted (fun _ _ ht => ht) trivial

theorem Sound.publication {p : Publication H} (h : Sound s) (hi : s.tasks[i]? = some (.publication p)) :
    Sound ⟨(p.next H s.db).2, s.tasks.set i (p.next H s.db).1⟩ := by
  have hp : p.Sound E s.db := h.tasks _ (List.mem_of_getElem? hi)
  cases htodo : p.todo with
  | nil =>
    have hnext : p.next H s.db = StateRoots.committed H s.db (publishTx H p) := by
      rw [Publication.next, htodo]
    rw [hnext]
    refine h.committed hi fun db' hcommit => ?_
    obtain ⟨hrooted, hgrows⟩ := hp.publish htodo h.rooted hcommit
    exact ⟨hrooted, fun t _ ht => ht.grows hcommit hgrows⟩
  | cons node todo =>
    simp only [Publication.next, htodo]
    split
    · rename_i hfound
      exact h.set hi h.rooted (fun _ _ ht => ht) (hp.found htodo hfound)
    · exact h.set hi h.rooted (fun _ _ ht => ht) (hp.missed htodo)

theorem Sound.flush {p : Publication H} (h : Sound s) (hi : s.tasks[i]? = some (.publication p)) :
    Sound ⟨(p.flush H s.db).2, s.tasks.set i (p.flush H s.db).1⟩ := by
  have hp : p.Sound E s.db := h.tasks _ (List.mem_of_getElem? hi)
  unfold Publication.flush
  split
  · exact h.set hi h.rooted (fun _ _ ht => ht) hp
  · split
    · rename_i db' hcommit
      obtain ⟨hrooted, hgrows, hnew⟩ := hp.flush h.rooted hcommit
      exact h.set hi hrooted (fun t _ ht => ht.grows hcommit hgrows) hnew
    · exact h.set hi h.rooted (fun _ _ ht => ht) trivial

variable [DecidableEq Hash] {scan : Scan E}

theorem Sound.sweep {room : Bytes} {phase : Phase Id Hash} (h : Sound s)
    (hi : s.tasks[i]? = some (.sweep room phase))
    (hok : Undisturbed (.run i) s) :
    Sound ⟨(sweepNext H scan s.db room phase).2, s.tasks.set i (sweepNext H scan s.db room phase).1⟩ := by
  have hphase : sweepSound H E s.db room phase := h.tasks _ (List.mem_of_getElem? hi)
  -- only the last step of a sweep commits
  by_cases hready : ∃ version orphans, phase = .ready version orphans
  · obtain ⟨version, orphans, rfl⟩ := hready
    refine h.committed hi fun db' hcommit => ?_
    obtain ⟨hversion, hrooted⟩ := h.rooted.sweep hphase hcommit
    refine ⟨hrooted, fun t ht hsound => ?_⟩
    cases t with
    | publication p =>
      refine Publication.Sound.mono hsound fun hash hr hd => durable_of_sweep hcommit (fun hroom => ?_) hd
      exact hok room version orphans hi hversion p ht hroom hash hr
    | sweep room' phase' => exact sweepSound_of_commit hcommit hsound
    | done => trivial
  · obtain ⟨hdb, hnew⟩ := sweepNext_sound scan hphase fun version orphans heq => hready ⟨version, orphans, heq⟩
    rw [hdb]
    exact h.set hi h.rooted (fun _ _ ht => ht) hnew

theorem step_sound {a : Action H} (h : Sound s) (hok : Undisturbed a s) (hs : step H scan a s = some s') :
    Sound s' := by
  cases a with
  | publish room update =>
    cases hs
    refine h.append ⟨fun hash hr => ?_, fun n hn => ?_⟩
    · rcases hr with ⟨l, hl, hbelow⟩ | ⟨hn, ht, -⟩
      · exact hok l hl hash hbelow
      · exact absurd hn ht
    · rcases hn with hn | hn
      · cases hn
      · exact update.wellFormed.encoded hn
  | sweep room =>
    cases hs
    exact h.append trivial
  | run i =>
    obtain ⟨t, hi, hs⟩ := Option.bind_eq_some_iff.mp hs
    cases hs
    cases t with
    | publication p => exact h.publication hi
    | sweep room phase => exact h.sweep hi hok
    | done => exact h.set hi h.rooted (fun _ _ ht => ht) trivial
  | flush i =>
    obtain ⟨t, hi, hs⟩ := Option.bind_eq_some_iff.mp hs
    cases t with
    | publication p =>
      cases hs
      exact h.flush hi
    | sweep room phase => cases hs
    | done => cases hs
  | fail i =>
    obtain ⟨t, hi, hs⟩ := Option.bind_eq_some_iff.mp hs
    cases hs
    exact h.set hi h.rooted (fun _ _ ht => ht) trivial

/-- Whatever the order of the steps, a sweep strands no root as long as it does not
remove nodes that a publication under way relies on. -/
theorem roots_kept {db : E.Db} (hempty : ∀ r, E.get db r = none)
    (hrun : Reaches (step H scan) Undisturbed ⟨db, []⟩ s) : Rooted H E s.db := by
  have h₀ : Sound (⟨db, []⟩ : State E H) := by
    refine ⟨fun room node bytes root hash hget => ?_, fun t ht => by cases ht⟩
    rw [hempty] at hget
    cases hget
  exact (hrun.invariant h₀ fun _ _ _ h hok hs => step_sound h hok hs).rooted

end

/-! ## A sweep between the look-up and the commit of a publication -/

/-- Nodes without children, named by their contents. -/
def plainHamt : Hamt (String × Bytes) Bytes where
  roomStateCollectionId room := ("stat", room)
  roomRootsCollectionId room := ("stgp", room)
  roomRootNodeId := ("room-root", [])
  eventRootNodeId eventId := ("event-root", eventId)
  hamtNodeId hash := ("node", hash.take 16)
  children _ _ := []
  decodeVerified _ bytes hash := if bytes = 1 :: hash then some [] else none
  rootHandleFromBytes bytes :=
    match bytes with
    | 2 :: hash => some hash
    | _ => none
  stateCollection_inj h := (Prod.mk.inj h).2
  rootsCollection_inj h := (Prod.mk.inj h).2
  collections_ne h := by simpa using (Prod.mk.inj h).1
  decodeVerified_eq h := by
    split at h
    · rename_i hbytes
      cases h
      exact ⟨by simp [hbytes], rfl⟩
    · cases h
  rootHandle_ne h hbytes := by
    rw [hbytes] at h
    cases h

/-- A state of one node, for the current state of the room. -/
def plainUpdate (room hash : Bytes) : Update plainHamt room where
  tree := .resolved hash (1 :: hash) []
  rootBytes := 2 :: hash
  eventIds := []
  isRoomRoot := true
  wellFormed := .resolved (by simp [plainHamt]) (by simp)
  root_eq := rfl

abbrev PlainState := State (logged (String × Bytes)) plainHamt

def plainStep : Action plainHamt → PlainState → Option PlainState := step plainHamt (loggedScan (String × Bytes))

/-- The room returns to an earlier state while the nodes of that state are swept: the
publication found them, the sweep did not see its root, and the root is without its node. -/
theorem found_node_swept : ∃ s : PlainState, Reaches plainStep (fun _ _ => True) ⟨([] : Log _), []⟩ s ∧
    ¬ Rooted plainHamt (logged (String × Bytes)) s.db := by
  have hrun : ((runWhile plainStep (fun _ _ => True) [.publish [33] (plainUpdate [33] [7]), .run 0, .run 0,
      .publish [33] (plainUpdate [33] [8]), .run 1, .run 1, .publish [33] (plainUpdate [33] [7]), .run 2,
      .sweep [33], .run 3, .run 3, .run 3, .run 3, .run 3, .run 3, .run 2]
      (⟨([] : Log _), []⟩ : PlainState)).map fun s =>
        ((logged (String × Bytes)).get s.db (rootRecord plainHamt [33] plainHamt.roomRootNodeId),
          isDurable plainHamt (logged (String × Bytes)) s.db [33] [7])) = some (some [2, 7], false) := by decide
  obtain ⟨s, hs, hv⟩ := Option.map_eq_some_iff.mp hrun
  rw [Prod.mk.injEq] at hv
  refine ⟨s, Reaches.of_runWhile _ .init hs, fun hrooted => ?_⟩
  have hstored := hrooted [33] plainHamt.roomRootNodeId [2, 7] [7] [7] hv.1 rfl .refl
  rw [hv.2] at hstored
  cases hstored

/-- Nothing is left to others, and no sweep commits beside a publication. -/
def plainCalm : Action plainHamt → PlainState → Bool
  | .publish _ update, _ => update.tree.lazies.isEmpty
  | .run i, s =>
    match s.tasks[i]? with
    | some (.sweep _ (.ready _ _)) => s.tasks.all fun t =>
      match t with
      | .publication _ => false
      | _ => true
    | _ => true
  | _, _ => true

theorem undisturbed_of_calm {a : Action plainHamt} {s : PlainState}
    (h : plainCalm a s = true) : Undisturbed a s := by
  cases a with
  | publish room update =>
    intro l hl
    rw [List.isEmpty_iff.mp h] at hl
    cases hl
  | run i =>
    intro room version orphans hi _ p hp
    simp only [plainCalm, hi] at h
    exact absurd (List.all_eq_true.mp h _ hp) (by simp)
  | sweep room => trivial
  | flush i => trivial
  | fail i => trivial

/-- A sweep after the room moved to another state removes the nodes of the earlier one. -/
theorem replaced_state_swept : ∃ s : PlainState,
    Reaches (step plainHamt (loggedScan (String × Bytes))) Undisturbed ⟨([] : Log _), []⟩ s ∧
    Rooted plainHamt (logged (String × Bytes)) s.db ∧
    isDurable plainHamt (logged (String × Bytes)) s.db [33] [7] = false ∧
    isDurable plainHamt (logged (String × Bytes)) s.db [33] [8] = true := by
  have hrun : ((runWhile plainStep (fun a s => plainCalm a s = true)
      [.publish [33] (plainUpdate [33] [7]), .run 0, .run 0, .publish [33] (plainUpdate [33] [8]), .run 1, .run 1,
        .sweep [33], .run 2, .run 2, .run 2, .run 2, .run 2, .run 2]
      (⟨([] : Log _), []⟩ : PlainState)).map fun s =>
        (isDurable plainHamt (logged (String × Bytes)) s.db [33] [7],
          isDurable plainHamt (logged (String × Bytes)) s.db [33] [8])) = some (false, true) := by decide
  obtain ⟨s, hs, hv⟩ := Option.map_eq_some_iff.mp hrun
  rw [Prod.mk.injEq] at hv
  have hreach := (Reaches.of_runWhile _ .init hs).mono fun a s => undisturbed_of_calm (a := a) (s := s)
  exact ⟨s, hreach, roots_kept (fun _ => rfl) hreach, hv.1, hv.2⟩

end Congruent.StateRoots
