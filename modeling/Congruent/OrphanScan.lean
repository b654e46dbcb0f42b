import Mathlib.Data.Finset.Card
import Congruent.Redb
import Congruent.StateRoots

/-!
# The dry run of an orphan sweep (`rooms/state_hamt/store.rs`, `orphan_scan.rs`)

A scan reads the roots of a room, lets the tree library walk down from them, and reports
the nodes of the room that share their truncated id with no node that was seen. Others go
on committing while it runs.
-/

namespace Congruent.StateRoots

open Store

/-! ## The walk of the library -/

/-- What `walk_reachable_node_hashes` asks of its resolver, and with which hashes seen it
ends. -/
inductive Walking (Hash : Type) where
  | done (seen : Finset Hash)
  | failed
  | ask (hash : Hash) (next : Option (List Hash) → Walking Hash)

namespace Walking

variable {Hash : Type}

/-- A walk with a resolver that counts its calls. -/
def run (resolve : Hash → Nat → Option (List Hash)) : Walking Hash → Nat → Option (Finset Hash) × Nat
  | done seen, n => (some seen, n)
  | failed, n => (none, n)
  | ask hash next, n => (next (resolve hash n)).run resolve (n + 1)

/-- The walk ends with these hashes when the resolver knows the children of every node. -/
inductive Ends (children : Hash → List Hash) : Walking Hash → Finset Hash → Prop where
  | done (seen : Finset Hash) : Ends children (done seen) seen
  | ask {hash : Hash} {next : Option (List Hash) → Walking Hash} {seen : Finset Hash}
    (h : Ends children (next (some (children hash))) seen) : Ends children (ask hash next) seen

/-- A node that the resolver lacks ends the walk with an error. -/
inductive NeedsAll : Walking Hash → Prop where
  | done (seen : Finset Hash) : NeedsAll (done seen)
  | failed : NeedsAll failed
  | ask {hash : Hash} {next : Option (List Hash) → Walking Hash} (missing : next none = failed)
    (found : ∀ children, NeedsAll (next (some children))) : NeedsAll (ask hash next)

theorem le_run (resolve : Hash → Nat → Option (List Hash)) : ∀ (w : Walking Hash) (n : Nat), n ≤ (w.run resolve n).2
  | done _, n => Nat.le_refl n
  | failed, n => Nat.le_refl n
  | ask hash next, n => Nat.le_trans (Nat.le_succ n) (le_run resolve (next (resolve hash n)) (n + 1))

theorem ends_of_run {children : Hash → List Hash} {resolve : Hash → Nat → Option (List Hash)}
    (hresolve : ∀ hash n cs, resolve hash n = some cs → cs = children hash) {seen : Finset Hash} :
    ∀ {w : Walking Hash} {n m : Nat}, w.NeedsAll → w.run resolve n = (some seen, m) → w.Ends children seen
  | done _, n, m, _, h => by
    cases h
    exact .done _
  | failed, n, m, _, h => by cases h
  | ask hash next, n, m, .ask hmissing hfound, h => by
    unfold run at h
    cases hr : resolve hash n with
    | none =>
      rw [hr, hmissing] at h
      cases h
    | some cs =>
      rw [hr] at h
      rw [hresolve hash n cs hr] at h
      exact .ask (ends_of_run hresolve (hfound _) h)

end Walking

/-- `walk_reachable_node_hashes`: down from a root and its children, past the hashes that
are seen already. -/
structure Walker (Hash : Type) where
  walk : Hash → List Hash → Finset Hash → Walking Hash
  needsAll : ∀ root cs seen, (walk root cs seen).NeedsAll
  visits : ∀ {children : Hash → List Hash} {root : Hash} {seen seen' : Finset Hash},
    (walk root (children root) seen).Ends children seen' →
      seen ⊆ seen' ∧ root ∈ seen' ∧ ∀ hash ∈ seen', hash ∉ seen → ∀ c ∈ children hash, c ∈ seen'

/-! ## A scan -/

/-- The store from one access of a scan to the next, and which accesses fail. -/
structure History {Id : Type} [DecidableEq Id] (E : Engine Id) where
  db : Nat → E.Db
  fails : Nat → Option StorageError
  commits : ∀ n, Relation.ReflTransGen (fun db db' => ∃ tx, E.commit db tx = .ok db') (db n) (db (n + 1))

/-- Why a room was left out. -/
inductive SkipReason where
  | badRoomId
  | noRoots
  | undecodableRoot
  | incompleteWalk
  | rootsChanged
  | io
  deriving DecidableEq, Repr

/-- Outcome of scanning one room. -/
inductive RoomScan (Id : Type) where
  | skipped (reason : SkipReason)
  | scanned (nodes : List Id) (reachable : Finset Id)

section
variable {Id Hash : Type} [DecidableEq Id] [DecidableEq Hash] {E : Engine Id}
  (H : Hamt Id Hash) (scan : Scan E) (W : Walker Hash) (T : History E)

def History.access {A : Type} (T : History E) (read : E.Db → A) (n : Nat) : Except StorageError A :=
  match T.fails n with
  | some error => .error error
  | none => .ok (read (T.db n))

/-- `read_node_verified`, where an error is as good as no node. -/
def resolveNode (room : Bytes) (hash : Hash) (n : Nat) : Option (List Hash) :=
  match T.access (fun db => readNodeVerified H E db room hash) n with
  | .ok node => node
  | .error _ => none

def walkRoots (room : Bytes) : List Hash → Finset Hash → Nat → Option (Finset Hash) × Nat
  | [], seen, n => (some seen, n)
  | root :: roots, seen, n =>
    match resolveNode H T room root n with
    | none => (none, n + 1)
    | some children =>
      match (W.walk root children seen).run (resolveNode H T room) (n + 1) with
      | (none, n) => (none, n)
      | (some seen, n) => walkRoots room roots seen n

variable [LE Hash] [DecidableLE Hash]

/-- `sort_unstable_by_key` and `dedup_by_key` on the structural hash. -/
def sortedHandles (handles : List Hash) : List Hash := (handles.insertionSort fun a b => a ≤ b).dedup

def scanNodes (room : Bytes) (version : Nat) (seen : Finset Hash) (n : Nat) :
    Except StorageError (RoomScan Id) × Nat :=
  match T.access (fun db => (scan.scan db .state (H.roomStateCollectionId room)).map Prod.fst) n with
  | .error error => (.error error, n + 1)
  | .ok nodes =>
    match T.access (fun db => rootsVersion H E db room) (n + 1) with
    | .error error => (.error error, n + 2)
    | .ok now =>
      if now ≠ version then (.ok (.skipped .rootsChanged), n + 2)
      else (.ok (.scanned nodes (seen.image H.hamtNodeId)), n + 2)

/-- `scan_room`, with the time of its first access: what comes of it, and when. -/
def scanRoom (room : Bytes) (n : Nat) : Except StorageError (RoomScan Id) × Nat :=
  match T.access (fun db => rootsVersion H E db room) n with
  | .error error => (.error error, n + 1)
  | .ok version =>
    match T.access (fun db => (scan.scan db .state (H.roomRootsCollectionId room)).map Prod.snd) (n + 1) with
    | .error error => (.error error, n + 2)
    | .ok roots =>
      if roots.isEmpty then (.ok (.skipped .noRoots), n + 2)
      else
        match roots.mapM H.rootHandleFromBytes with
        | none => (.ok (.skipped .undecodableRoot), n + 2)
        | some handles =>
          match walkRoots H W T room (sortedHandles handles) ∅ (n + 2) with
          | (none, n) => (.ok (.skipped .incompleteWalk), n)
          | (some seen, n) => scanNodes H scan T room version seen n

/-! ## The report -/

/-- What a completely scanned room holds. -/
structure RoomOrphans (Id : Type) where
  roomId : Bytes
  nodes : Nat
  orphans : List Id

structure OrphanReport (Id : Type) where
  rooms : List (RoomOrphans Id)
  skipped : SkipReason → Nat
  persistedTwoPasses : Nat

variable [LE Id] [DecidableLE Id]

def orphansOf (nodes : List Id) (reachable : Finset Id) : List Id :=
  (nodes.filter fun node => node ∉ reachable).insertionSort fun a b => a ≤ b

/-- The loop over the rooms. -/
def scanRooms : List Bytes → Nat → List (RoomOrphans Id) × List SkipReason × Nat
  | [], n => ([], [], n)
  | room :: rooms, n =>
    match scanRoom H scan W T room n with
    | (.error _, n) =>
      let (found, skipped, n) := scanRooms rooms n
      (found, .io :: skipped, n)
    | (.ok (.skipped reason), n) =>
      let (found, skipped, n) := scanRooms rooms n
      (found, reason :: skipped, n)
    | (.ok (.scanned nodes reachable), n) =>
      let (found, skipped, n) := scanRooms rooms n
      (⟨room, nodes.length, orphansOf nodes reachable⟩ :: found, skipped, n)

def candidates (rooms : List (RoomOrphans Id)) : Finset (Id × Id) :=
  (rooms.flatMap fun room => room.orphans.map fun node => (H.roomStateCollectionId room.roomId, node)).toFinset

/-- `orphan_scan_dry_run`, with the candidates of the pass before: the report, and the
candidates that the next pass will compare with. -/
def orphanScanDryRun (previous : Finset (Id × Id)) (rooms : List Bytes) (badRoomIds n : Nat) :
    OrphanReport Id × Finset (Id × Id) :=
  let (found, skipped, _) := scanRooms H scan W T rooms n
  let current := candidates H found
  (⟨found, fun reason => (List.replicate badRoomIds SkipReason.badRoomId ++ skipped).count reason,
    (current.filter fun candidate => candidate ∈ previous).card⟩, current)

end

/-! ## The history -/

theorem mem_of_below {Id Hash : Type} {H : Hamt Id Hash} {room : Bytes} {seen : Finset Hash}
    (hclosed : ∀ hash ∈ seen, ∀ c ∈ H.children room hash, c ∈ seen) {root hash : Hash} (hroot : root ∈ seen)
    (hbelow : Below H room root hash) : hash ∈ seen := by
  induction hbelow with
  | refl => exact hroot
  | tail _ hc ih => exact hclosed _ ih _ hc

section
variable {Id Hash : Type} [DecidableEq Id] {E : Engine Id} (H : Hamt Id Hash) (T : History E)

theorem SameRoots.trans {db db' db'' : E.Db} {room : Bytes} (h : SameRoots H E db db' room)
    (h' : SameRoots H E db' db'' room) : SameRoots H E db db'' room := by
  refine ⟨Nat.le_trans h.1 h'.1, fun heq node => ?_⟩
  have hle := h.1
  have hle' := h'.1
  rw [h'.2 (by omega) node, h.2 (by omega) node]

theorem sameRoots_history (room : Bytes) {m n : Nat} (h : m ≤ n) : SameRoots H E (T.db m) (T.db n) room := by
  induction n, h using Nat.le_induction with
  | base => exact ⟨Nat.le_refl _, fun _ _ => rfl⟩
  | succ n _ ih =>
    refine ih.trans H ?_
    have hcommits := T.commits n
    generalize T.db (n + 1) = db' at hcommits
    induction hcommits with
    | refl => exact ⟨Nat.le_refl _, fun _ _ => rfl⟩
    | tail _ hcommit ih' =>
      obtain ⟨tx, hcommit⟩ := hcommit
      exact ih'.trans H (sameRoots_of_commit hcommit room)

theorem access_ok {A : Type} {read : E.Db → A} {n : Nat} {a : A} (h : T.access read n = .ok a) :
    a = read (T.db n) := by
  unfold History.access at h
  split at h
  · cases h
  · exact (Except.ok.inj h).symm

theorem resolveNode_eq {room : Bytes} (hash : Hash) (n : Nat) (cs : List Hash)
    (h : resolveNode H T room hash n = some cs) : cs = H.children room hash := by
  unfold resolveNode at h
  split at h
  · rename_i node hnode
    obtain ⟨bytes, -, hdecode⟩ := Option.bind_eq_some_iff.mp ((access_ok T hnode).symm.trans h)
    exact (H.decodeVerified_eq hdecode).2
  · cases h

end

/-! ## What a scan has seen -/

section
variable {Id Hash : Type} [DecidableEq Id] [DecidableEq Hash] {E : Engine Id}
  (H : Hamt Id Hash) (scan : Scan E) (W : Walker Hash) (T : History E)

theorem walkRoots_spec {room : Bytes} {seen' : Finset Hash} {m : Nat} :
    ∀ {roots : List Hash} {seen : Finset Hash} {n : Nat}, walkRoots H W T room roots seen n = (some seen', m) →
      (∀ hash ∈ seen, ∀ c ∈ H.children room hash, c ∈ seen) →
      n ≤ m ∧ seen ⊆ seen' ∧ (∀ root ∈ roots, root ∈ seen') ∧ ∀ hash ∈ seen', ∀ c ∈ H.children room hash, c ∈ seen'
  | [], seen, n, h, hclosed => by
    cases h
    exact ⟨Nat.le_refl m, Finset.Subset.refl seen', by simp, hclosed⟩
  | root :: roots, seen, n, h, hclosed => by
    unfold walkRoots at h
    cases hroot : resolveNode H T room root n with
    | none =>
      rw [hroot] at h
      cases h
    | some cs =>
      obtain rfl := resolveNode_eq H T root n cs hroot
      cases hwalk : (W.walk root (H.children room root) seen).run (resolveNode H T room) (n + 1) with
      | mk result k =>
      have hle := Walking.le_run (resolveNode H T room) (W.walk root (H.children room root) seen) (n + 1)
      rw [hwalk] at hle
      simp only [hroot, hwalk] at h
      cases result with
      | none => cases h
      | some between =>
        have hends := Walking.ends_of_run (resolveNode_eq H T) (W.needsAll ..) hwalk
        obtain ⟨hsub, hmem, hnew⟩ := W.visits hends
        obtain ⟨hm, hsub', hroots, hclosed'⟩ := walkRoots_spec h fun hash hhash c hc => by
          by_cases hold : hash ∈ seen
          · exact hsub (hclosed hash hold c hc)
          · exact hnew hash hhash hold c hc
        refine ⟨by omega, hsub.trans hsub', fun r hr => ?_, hclosed'⟩
        rcases List.mem_cons.mp hr with rfl | hr
        · exact hsub' hmem
        · exact hroots r hr

variable [LE Hash] [DecidableLE Hash]

/-- A scan that reports has read the roots and walked down from them, and the version at its
end is the one at its start. -/
theorem scanRoom_scanned {room : Bytes} {n n' : Nat} {nodes : List Id} {reachable : Finset Id}
    (h : scanRoom H scan W T room n = (.ok (.scanned nodes reachable), n')) :
    ∃ handles seen m, ((scan.scan (T.db (n + 1)) .state (H.roomRootsCollectionId room)).map Prod.snd).mapM
        H.rootHandleFromBytes = some handles ∧
      walkRoots H W T room (sortedHandles handles) ∅ (n + 2) = (some seen, m) ∧ n' = m + 2 ∧
      reachable = seen.image H.hamtNodeId ∧
      rootsVersion H E (T.db (m + 1)) room = rootsVersion H E (T.db n) room := by
  unfold scanRoom at h
  split at h
  · cases h
  rename_i version hversion
  split at h
  · cases h
  rename_i roots hroots
  split at h
  · cases h
  split at h
  · cases h
  rename_i handles hhandles
  split at h
  · cases h
  rename_i seen m hwalk
  unfold scanNodes at h
  split at h
  · cases h
  rename_i listed hlisted
  split at h
  · cases h
  rename_i now hnow
  split at h
  · cases h
  rename_i hsame
  cases h
  refine ⟨handles, seen, m, ?_, hwalk, rfl, rfl, ?_⟩
  · rw [← access_ok T hroots]
    exact hhandles
  · rw [← access_ok T hversion, ← access_ok T hnow]
    exact not_ne_iff.mp hsame

theorem scanRoom_lt {room : Bytes} {n n' : Nat} {nodes : List Id} {reachable : Finset Id}
    (h : scanRoom H scan W T room n = (.ok (.scanned nodes reachable), n')) : n < n' := by
  obtain ⟨handles, seen, m, -, hwalk, rfl, -⟩ := scanRoom_scanned H scan W T h
  have hm := (walkRoots_spec H W T hwalk (by simp)).1
  omega

variable [LE Id] [DecidableLE Id]

theorem scanRoom_conservative {room : Bytes} {n n' : Nat} {nodes : List Id} {reachable : Finset Id}
    (h : scanRoom H scan W T room n = (.ok (.scanned nodes reachable), n')) {t : Nat} (hn : n ≤ t) (ht : t < n') :
    rootsVersion H E (T.db t) room = rootsVersion H E (T.db n) room ∧
      ∀ node bytes, E.get (T.db t) (rootRecord H room node) = some bytes → ∃ root,
        H.rootHandleFromBytes bytes = some root ∧
          ∀ hash, Below H room root hash → H.hamtNodeId hash ∉ orphansOf nodes reachable := by
  obtain ⟨handles, seen, m, hhandles, hwalk, rfl, rfl, hversion⟩ := scanRoom_scanned H scan W T h
  obtain ⟨hm, -, hroots, hclosed⟩ := walkRoots_spec H W T hwalk (by simp)
  -- the version at `t` lies between those of the two ends
  have hbefore := sameRoots_history H T room hn
  have hafter := sameRoots_history H T room (Nat.le_of_lt_succ ht)
  have hsame : rootsVersion H E (T.db t) room = rootsVersion H E (T.db n) room := by
    have hle := hbefore.1
    have hle' := hafter.1
    omega
  refine ⟨hsame, fun node bytes hget => ?_⟩
  have hread := sameRoots_history H T room (show n ≤ n + 1 by omega)
  have hrest := sameRoots_history H T room (show n + 1 ≤ m + 1 by omega)
  have hlisted : E.get (T.db (n + 1)) (rootRecord H room node) = some bytes := by
    have hle := hread.1
    have hle' := hrest.1
    rw [hread.2 (by omega), ← hbefore.2 hsame]
    exact hget
  have hmem : bytes ∈ (scan.scan (T.db (n + 1)) .state (H.roomRootsCollectionId room)).map Prod.snd :=
    List.mem_map.mpr ⟨(node, bytes), scan.mem_scan.mpr hlisted, rfl⟩
  obtain ⟨root, hroot, hdecode⟩ := mapM_some hhandles hmem
  refine ⟨root, hdecode, fun hash hbelow horphan => ?_⟩
  have hsorted : root ∈ sortedHandles handles := List.mem_dedup.mpr ((List.mem_insertionSort _).mpr hroot)
  have hseen := mem_of_below hclosed (hroots root hsorted) hbelow
  unfold orphansOf at horphan
  rw [List.mem_insertionSort, List.mem_filter] at horphan
  exact of_decide_eq_true horphan.2 (Finset.mem_image_of_mem _ hseen)

theorem mem_scanRooms {ro : RoomOrphans Id} : ∀ {rooms : List Bytes} {n : Nat},
    ro ∈ (scanRooms H scan W T rooms n).1 → ∃ start stop nodes reachable,
      scanRoom H scan W T ro.roomId start = (.ok (.scanned nodes reachable), stop) ∧
        ro.orphans = orphansOf nodes reachable
  | [], n, h => by simp [scanRooms] at h
  | room :: rooms, n, h => by
    unfold scanRooms at h
    split at h
    · exact mem_scanRooms h
    · exact mem_scanRooms h
    · rename_i nodes reachable m hscan
      rcases List.mem_cons.mp h with rfl | h
      · exact ⟨n, m, nodes, reachable, hscan, rfl⟩
      · exact mem_scanRooms h

/-- A room is reported after a scan during which no root of it was published, and none of
its orphans has the id of a node that one of its roots reaches. -/
theorem orphan_scan_conservative {previous : Finset (Id × Id)} {rooms : List Bytes} {badRoomIds n : Nat}
    {ro : RoomOrphans Id} (h : ro ∈ (orphanScanDryRun H scan W T previous rooms badRoomIds n).1.rooms) :
    ∃ start stop nodes reachable, scanRoom H scan W T ro.roomId start = (.ok (.scanned nodes reachable), stop) ∧
      start < stop ∧ ro.orphans = orphansOf nodes reachable ∧ ∀ t, start ≤ t → t < stop →
        rootsVersion H E (T.db t) ro.roomId = rootsVersion H E (T.db start) ro.roomId ∧
        ∀ node bytes, E.get (T.db t) (rootRecord H ro.roomId node) = some bytes → ∃ root,
          H.rootHandleFromBytes bytes = some root ∧
            ∀ hash, Below H ro.roomId root hash → H.hamtNodeId hash ∉ ro.orphans := by
  obtain ⟨start, stop, nodes, reachable, hscan, horphans⟩ := mem_scanRooms H scan W T h
  refine ⟨start, stop, nodes, reachable, hscan, scanRoom_lt H scan W T hscan, horphans, fun t hstart hstop => ?_⟩
  rw [horphans]
  exact scanRoom_conservative H scan W T hscan hstart hstop

end

/-! ## A room with two states, one of them gone -/

/-- Nodes named by their children, of one byte each, and a byte of their own. -/
def treeHamt : Hamt (List UInt8) Bytes where
  roomStateCollectionId room := 0 :: room
  roomRootsCollectionId room := 1 :: room
  roomRootNodeId := [0]
  eventRootNodeId eventId := 1 :: eventId
  hamtNodeId hash := hash.take 1
  children _ hash := hash.tail.map fun b => [b]
  decodeVerified _ bytes hash := if bytes = 1 :: hash then some (hash.tail.map fun b => [b]) else none
  rootHandleFromBytes := plainHamt.rootHandleFromBytes
  stateCollection_inj h := List.tail_eq_of_cons_eq h
  rootsCollection_inj h := List.tail_eq_of_cons_eq h
  collections_ne h := by simp at h
  decodeVerified_eq h := by
    split at h
    · rename_i hbytes
      cases h
      exact ⟨by simp [hbytes], rfl⟩
    · cases h
  rootHandle_ne := plainHamt.rootHandle_ne

/-- Depth first, as long as there is fuel. -/
def descend {Hash : Type} [DecidableEq Hash] : Nat → List Hash → Finset Hash → Walking Hash
  | 0, _, _ => .failed
  | _ + 1, [], seen => .done seen
  | fuel + 1, hash :: stack, seen =>
    if hash ∈ seen then descend fuel stack seen
    else .ask hash fun found =>
      match found with
      | none => .failed
      | some cs => descend fuel (cs ++ stack) (insert hash seen)

theorem descend_needsAll {Hash : Type} [DecidableEq Hash] : ∀ (fuel : Nat) (stack : List Hash) (seen : Finset Hash),
    (descend fuel stack seen).NeedsAll
  | 0, _, _ => .failed
  | _ + 1, [], seen => .done seen
  | fuel + 1, hash :: stack, seen => by
    unfold descend
    split
    · exact descend_needsAll fuel stack seen
    · exact .ask rfl fun cs => descend_needsAll fuel (cs ++ stack) (insert hash seen)

theorem descend_visits {Hash : Type} [DecidableEq Hash] {children : Hash → List Hash} {seen' : Finset Hash} :
    ∀ {fuel : Nat} {stack : List Hash} {seen : Finset Hash}, (descend fuel stack seen).Ends children seen' →
      seen ⊆ seen' ∧ (∀ hash ∈ stack, hash ∈ seen') ∧
        ∀ hash ∈ seen', hash ∉ seen → ∀ c ∈ children hash, c ∈ seen'
  | 0, stack, seen, h => by cases h
  | _ + 1, [], seen, h => by
    cases h
    exact ⟨Finset.Subset.refl _, by simp, fun hash hmem hnot => absurd hmem hnot⟩
  | fuel + 1, hash :: stack, seen, h => by
    unfold descend at h
    split at h
    · rename_i hseen
      obtain ⟨hsub, hstack, hnew⟩ := descend_visits h
      exact ⟨hsub, List.forall_mem_cons.mpr ⟨hsub hseen, hstack⟩, hnew⟩
    · cases h with
      | ask h =>
      obtain ⟨hsub, hstack, hnew⟩ := descend_visits h
      have hhash : hash ∈ seen' := hsub (Finset.mem_insert_self hash seen)
      refine ⟨(Finset.subset_insert hash seen).trans hsub, ?_, fun x hx hnot c hc => ?_⟩
      · exact List.forall_mem_cons.mpr ⟨hhash, fun x hx => hstack x (List.mem_append_right _ hx)⟩
      · by_cases hx' : x = hash
        · subst hx'
          exact hstack c (List.mem_append_left _ hc)
        · exact hnew x hx (by simp [hx', hnot]) c hc

def descent (fuel : Nat) (Hash : Type) [DecidableEq Hash] : Walker Hash where
  walk root cs seen := if root ∈ seen then .done seen else descend fuel cs (insert root seen)
  needsAll root cs seen := by
    split
    · exact .done seen
    · exact descend_needsAll fuel cs (insert root seen)
  visits {children root seen seen'} h := by
    split at h
    · rename_i hroot
      cases h
      exact ⟨Finset.Subset.refl _, hroot, fun hash hmem hnot => absurd hmem hnot⟩
    · obtain ⟨hsub, hstack, hnew⟩ := descend_visits h
      refine ⟨(Finset.subset_insert root seen).trans hsub, hsub (Finset.mem_insert_self root seen), ?_⟩
      intro hash hmem hnot c hc
      by_cases hx : hash = root
      · subst hx
        exact hstack c hc
      · exact hnew hash hmem (by simp [hx, hnot]) c hc

/-- The root of the room `[33]`, the nodes below it, and a node that no root reaches. -/
def treeStore : Log (List UInt8) :=
  [(rootRecord treeHamt [33] [0], some [2, 7, 8, 9]), (nodeRecord treeHamt [33] [7, 8, 9], some [1, 7, 8, 9]),
    (nodeRecord treeHamt [33] [8], some [1, 8]), (nodeRecord treeHamt [33] [9], some [1, 9]),
    (nodeRecord treeHamt [33] [5], some [1, 5])]

def quiet : History (logged (List UInt8)) where
  db _ := treeStore
  fails _ := none
  commits _ := .refl

def treeReport : OrphanReport (List UInt8) :=
  (orphanScanDryRun treeHamt (loggedScan (List UInt8)) (descent 9 Bytes) quiet ∅ [[33]] 0 0).1

/-- The node that no root reaches is reported, those below the root are not. -/
theorem orphan_scan_conservative_tree : ∃ ro ∈ treeReport.rooms, ro.orphans = [[5]] ∧
    ∀ hash, Below treeHamt [33] [7, 8, 9] hash → hash.take 1 ∉ ro.orphans := by
  have hreport : (⟨[33], 4, [[5]]⟩ : RoomOrphans (List UInt8)) ∈ treeReport.rooms := by
    have hrooms : treeReport.rooms = [⟨[33], 4, [[5]]⟩] := by rfl
    rw [hrooms]
    exact List.mem_singleton_self _
  refine ⟨_, hreport, rfl, ?_⟩
  obtain ⟨start, stop, nodes, reachable, -, hle, -, hall⟩ :=
    orphan_scan_conservative treeHamt (loggedScan (List UInt8)) (descent 9 Bytes) quiet hreport
  obtain ⟨-, hroots⟩ := hall start (Nat.le_refl start) hle
  obtain ⟨root, hroot, hbelow⟩ := hroots [0] [2, 7, 8, 9] rfl
  cases hroot
  exact hbelow

end Congruent.StateRoots
