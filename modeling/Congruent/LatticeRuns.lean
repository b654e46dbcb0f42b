import Mathlib.Algebra.Group.Fin.Basic
import Congruent.Machine
import Congruent.LatticeSound

/-!
# Lattices over runs

Whatever the order of the calls, the lattice stored for a root is the sum over its leaves,
and the two paths of an append return the same root, as long as the short state keys that
the calls look up are found.
-/

namespace Congruent.RoomLattice

section
variable {SKey Hash Handle G : Type} [AddCommGroup G] {R : Rezzy SKey Hash Handle G} {Of : SKey → R.Node → Prop}
  {leaf : String → String → String → G} {structuralKey : RoomId → SKey} [DecidableEq Hash]
  {s s' : Service R} {f f' : Faults} {room : RoomId} {root : Handle} {key : NamedKey} {id : EventId} {lattice : G}

/-! ## Appending -/

theorem getRootLattice_spec (hR : R.Lawful Of leaf) (h : Tables Of leaf structuralKey s) (fails : Bool)
    (root : Handle) :
    ∃ cache, (s.getRootLattice fails root).1 = { s with latticeCache := cache } ∧
      Tables Of leaf structuralKey { s with latticeCache := cache } ∧
      ∀ lattice t, (s.getRootLattice fails root).2 = some lattice → R.structuralHash t = R.handleHash root →
        lattice = latticeOf leaf s.keys s.events (R.leaves t) := by
  have hread : ∀ {raw lattice} {t : R.Node}, Right leaf s (R.handleHash root) raw → R.fromBytes raw = some lattice →
      R.structuralHash t = R.handleHash root → lattice = latticeOf leaf s.keys s.events (R.leaves t) := by
    intro raw lattice t hright hraw ht
    rw [hright.eq hR ht, hR.fromBytes, Option.some.injEq] at hraw
    exact hraw.symm
  unfold Service.getRootLattice
  cases hcache : s.latticeCache (R.handleHash root) with
  | some raw => exact ⟨_, rfl, h, fun lattice t hl ht => hread (h.cache hcache) hl ht⟩
  | none =>
    simp only
    cases fails with
    | true => exact ⟨_, rfl, h, fun lattice t hl => by cases hl⟩
    | false =>
      simp only [Bool.false_eq_true, if_false]
      cases htable : s.stateHamtRootLattices (R.handleHash root) with
      | none => exact ⟨_, rfl, h, fun lattice t hl => by cases hl⟩
      | some raw =>
        simp only
        by_cases hlen : raw.length ≠ latticeLen
        · rw [if_pos hlen]
          exact ⟨_, rfl, h, fun lattice t hl => by cases hl⟩
        · rw [if_neg hlen]
          cases hraw : R.fromBytes raw with
          | none => exact ⟨_, rfl, h, fun lattice t hl => by cases hl⟩
          | some lattice =>
            refine ⟨_, rfl, ⟨h.nodes, h.table, right_update h.cache (h.table htable)⟩, fun lattice' t hl ht => ?_⟩
            cases hl
            exact hread (h.table htable) hraw ht

theorem appendPath_spec (hR : R.Lawful Of leaf) (h : Tables Of leaf structuralKey s) (f : Faults) (room : RoomId)
    (root : Option Handle) :
    ∃ cache, (s.appendPath f room root).1 = { s with latticeCache := cache } ∧
      Tables Of leaf structuralKey { s with latticeCache := cache } ∧
      ∀ base lattice t, (s.appendPath f room root).2 = .incremental base lattice →
        R.structuralHash t = R.handleHash base → lattice = latticeOf leaf s.keys s.events (R.leaves t) := by
  have hrebuild : ∀ base lattice, s.rebuildFrom f room root ≠ .incremental base lattice := by
    intro base lattice hpath
    unfold Service.rebuildFrom at hpath
    cases root with
    | some root => cases hpath
    | none =>
      simp only at hpath
      split at hpath <;> cases hpath
  unfold Service.appendPath
  simp only
  split
  · exact ⟨_, rfl, h, fun base lattice t hpath => absurd hpath (hrebuild base lattice)⟩
  · rename_i base _
    obtain ⟨cache, hcache, htables, hlattice⟩ := getRootLattice_spec hR h f.lattice base
    split
    · rename_i s₁ lattice hget
      rw [hget] at hcache hlattice
      refine ⟨cache, hcache, htables, fun base' lattice' t hpath ht => ?_⟩
      cases hpath
      exact hlattice lattice t rfl ht
    · rename_i s₁ hget
      rw [hget] at hcache
      have hs : s₁ = { s with latticeCache := cache } := hcache
      refine ⟨cache, hs, htables, fun base' lattice' t hpath => ?_⟩
      rw [hs] at hpath
      exact absurd hpath (hrebuild base' lattice')

theorem call_append (hR : R.Lawful Of leaf) (h : Tables Of leaf structuralKey s) (newPdu : Pdu)
    (root : Option Handle)
    (hf : FindsKeys (.append f room newPdu root) s) :
    Call Of leaf structuralKey s room (s.appendToState structuralKey f room newPdu root) := by
  unfold Service.appendToState
  cases hstate : newPdu.stateKey with
  | none => exact .refused h (.refl s) rfl _
  | some stateKey =>
    simp only
    have hle := Enumeration.le_number s.keys (newPdu.kind.asStr, stateKey)
    have hkey := s.keys.get?_short_number (newPdu.kind.asStr, stateKey)
    have hfinds : ∀ base,
        (Service.appendPath { s with keys := s.keys.number (newPdu.kind.asStr, stateKey) } f room root).2 =
          .rebuild base →
        f.Answers (Service.rebuildKeys { s with keys := s.keys.number (newPdu.kind.asStr, stateKey) } room
          (newPdu.kind.asStr, stateKey) base) := fun base => hf stateKey base hstate
    obtain ⟨cache, hs, htables, hlattice⟩ := appendPath_spec hR (h.number hle s.events.le_refl) f room root
    generalize hpath : Service.appendPath { s with keys := s.keys.number (newPdu.kind.asStr, stateKey) }
      f room root =
      result at hs hlattice hfinds ⊢
    obtain ⟨s₁, path⟩ := result
    have hs₁ : s₁ = _ := hs
    subst hs₁
    cases path with
    | incremental base lattice =>
      have happended : Appended Of leaf structuralKey _ room (newPdu.kind.asStr, stateKey) newPdu.eventId _ _ :=
        appended_incremental (f := f) hR htables hkey fun old hold =>
          hlattice base lattice old rfl (htables.nodes hold).2.1
      exact happended.toCall.after ⟨hle, s.events.le_refl, fun h => h⟩ rfl
    | rebuild base =>
      have happended : Appended Of leaf structuralKey _ room (newPdu.kind.asStr, stateKey) newPdu.eventId _ _ :=
        appended_rebuild (f := f) hR htables hkey (hfinds base rfl)
      exact happended.toCall.after ⟨hle, s.events.le_refl, fun h => h⟩ rfl
    | refused e => exact .refused htables ⟨hle, s.events.le_refl, fun h => h⟩ rfl e

/-! ## Other writers -/

theorem Tables.storeNode (h : Tables Of leaf structuralKey s) {t : R.Node} (hof : Of (structuralKey room) t)
    (hknown : Known s.keys s.events (R.leaves t)) : Tables Of leaf structuralKey (s.storeNode room t) := by
  refine ⟨fun {room' hash t'} hnode => ?_, h.table, h.cache⟩
  unfold Service.storeNode at hnode
  by_cases hroom : room' = room
  · subst hroom
    simp only [Function.update_self] at hnode
    by_cases hhash : hash = R.structuralHash t
    · subst hhash
      rw [Function.update_self, Option.some.injEq] at hnode
      subst hnode
      exact ⟨hof, rfl, hknown⟩
    · rw [Function.update_of_ne hhash] at hnode
      exact h.nodes hnode
  · simp only [Function.update_of_ne hroom] at hnode
    exact h.nodes hnode

theorem Tables.storeLattice (hR : R.Lawful Of leaf) (h : Tables Of leaf structuralKey s) {t : R.Node}
    (hknown : Known s.keys s.events (R.leaves t)) (hl : lattice = latticeOf leaf s.keys s.events (R.leaves t)) :
    Tables Of leaf structuralKey (s.storeLattice (R.fromLthash (R.structuralHash t) lattice) lattice) :=
  ⟨h.nodes, right_update h.table (right_latticeOf hR hknown hl), h.cache⟩

theorem Sound.storeState (hR : R.Lawful Of leaf) (h : Sound Of leaf structuralKey s) (state : NamedState)
    (withLattice : Bool) : Sound Of leaf structuralKey (s.storeState structuralKey room state withLattice) := by
  have hkeys := Enumeration.le_numberAll s.keys state.keys
  have hevents := Enumeration.le_numberAll s.events (eventIds state)
  have hnumber := h.of_grows hR (h.tables.number hkeys hevents) (.number hkeys hevents) rfl
  have hstate : ∀ e ∈ state.entries, e.1 ∈ (s.keys.numberAll state.keys).items := by
    intro e he
    exact Enumeration.mem_numberAll.mpr (.inr (List.mem_map_of_mem he))
  have hnames : ∀ e ∈ state.entries, e.2 ∈ (s.events.numberAll (eventIds state)).items := by
    intro e he
    exact Enumeration.mem_numberAll.mpr (.inr (List.mem_map_of_mem he))
  unfold Service.storeState
  simp only
  split
  · exact hnumber
  · rename_i node hbuild
    obtain ⟨hof, hleaves⟩ := hR.build hbuild
    have hknown := known_namedLeaves hstate hnames
    have hlattice := latticeOfNamed_eq hR hstate hnames
    rw [← hleaves] at hknown hlattice
    have hstored := hnumber.tables.storeNode hof hknown
    cases withLattice with
    | true =>
      exact hnumber.of_grows hR (hstored.storeLattice hR hknown hlattice)
        ⟨Enumeration.le_refl _, Enumeration.le_refl _, update_ne_none⟩ rfl
    | false => exact hnumber.of_grows hR hstored ⟨Enumeration.le_refl _, Enumeration.le_refl _, fun h => h⟩ rfl

theorem Sound.mergeRoots (hR : R.Lawful Of leaf) (h : Sound Of leaf structuralKey s) {entries : Leaves}
    (hnum : s.Numbered entries.entries) (hf : f.Answers entries.keys)
    (hf' : ∀ e ∈ entries.entries, f.eventId e.2 = false) :
    Sound Of leaf structuralKey (s.mergeRoots structuralKey f room entries) := by
  unfold Service.mergeRoots
  simp only
  split
  · exact h
  · rename_i node hbuild
    obtain ⟨hof, hleaves⟩ := hR.build hbuild
    have hlattice := latticeForShortEntries_eq hR hnum hf hf'
    have hknown : Known s.keys s.events (R.leaves node) := by
      intro k v hm
      rw [hleaves, Finmap.lookup_toFinmap] at hm
      exact hnum.names (AList.mem_entries_iff.mpr hm)
    rw [← hleaves] at hlattice
    exact h.of_grows hR ((h.tables.storeNode hof hknown).storeLattice hR hknown hlattice)
      ⟨Enumeration.le_refl _, Enumeration.le_refl _, update_ne_none⟩ rfl

/-! ## Runs -/

variable {stateResolution : RoomId → List NamedState → Except StateError NamedState} {a : Action R}

theorem Sound.step (hR : R.Lawful Of leaf) (h : Sound Of leaf structuralKey s) (hf : FindsKeys a s)
    (hstep : step structuralKey stateResolution a s = some s') : Sound Of leaf structuralKey s' := by
  cases a with
  | append f room newPdu root =>
    cases hstep
    exact h.giveBack hR (call_append hR h.tables newPdu root hf)
  | resolve f room incoming =>
    cases hstep
    exact h.giveBack hR (call_resolve hR h.tables incoming hf)
  | publish i =>
    obtain ⟨⟨room, root, node⟩, hi, rfl⟩ := Option.map_eq_some_iff.mp hstep
    have hpublished := h.returned (List.mem_of_getElem? hi)
    exact h.of_grows hR (h.tables.storeNode hpublished.of hpublished.known)
      ⟨Enumeration.le_refl _, Enumeration.le_refl _, fun h => h⟩ rfl
  | setRoomState room root =>
    cases hstep
    exact h.of_grows hR ⟨h.tables.nodes, h.tables.table, h.tables.cache⟩
      ⟨Enumeration.le_refl _, Enumeration.le_refl _, fun h => h⟩ rfl
  | storeState room state withLattice =>
    cases hstep
    exact h.storeState hR state withLattice
  | mergeRoots f room entries =>
    unfold RoomLattice.step at hstep
    simp only at hstep
    by_cases hnum : s.Numbered entries.entries
    · rw [if_pos hnum, Option.some.injEq] at hstep
      exact hstep ▸ h.mergeRoots hR hnum hf.1 hf.2
    · rw [if_neg hnum] at hstep
      cases hstep
  | evict hash =>
    cases hstep
    refine h.of_grows hR ⟨h.tables.nodes, h.tables.table, fun {hash' raw} hraw => ?_⟩
      ⟨Enumeration.le_refl _, Enumeration.le_refl _, fun h => h⟩ rfl
    simp only at hraw
    by_cases heq : hash' = hash
    · subst heq
      rw [Function.update_self] at hraw
      cases hraw
    · rw [Function.update_of_ne heq] at hraw
      exact h.tables.cache hraw

theorem sound_of_reaches (hR : R.Lawful Of leaf)
    (h : Reaches (step structuralKey stateResolution) FindsKeys (Service.empty : Service R) s) :
    Sound Of leaf structuralKey s :=
  h.invariant sound_empty fun _ _ _ hs hf hstep => hs.step hR hf hstep

/-! ## The two paths -/

def SameRoot (a b : Service R × Except StateError (Handle × R.Node)) : Prop :=
  ∀ root t root' t', a.2 = .ok (root, t) → b.2 = .ok (root', t') →
    R.leaves t = R.leaves t' ∧ root = root' ∧
      a.1.stateHamtRootLattices (R.structuralHash t) = b.1.stateHamtRootLattices (R.structuralHash t')

omit [DecidableEq Hash] in
theorem Appended.same (hR : R.Lawful Of leaf) {m : Finmap fun _ : Nat => Nat}
    {a b : Service R × Except StateError (Handle × R.Node)} (ha : Appended Of leaf structuralKey s room key id m a)
    (hb : Appended Of leaf structuralKey s room key id m b) : SameRoot a b := by
  intro root t root' t' hokA hokB
  have hpubA := ha.published hokA
  have hpubB := hb.published hokB
  have hleaves := (ha.leaves hokA).trans (hb.leaves hokB).symm
  have hhash := hR.hash_eq hpubA.of hpubB.of hleaves
  have hkeys := (ha.keys_eq hokA).trans (hb.keys_eq hokB).symm
  have hevents := (ha.events_eq hokA).trans (hb.events_eq hokB).symm
  refine ⟨hleaves, ?_, ?_⟩
  · rw [hpubA.root, hpubB.root, hhash, hkeys, hevents, hleaves]
  · rw [hpubA.stored, hpubB.stored, hkeys, hevents, hleaves]

theorem isOk_incremental (hR : R.Lawful Of leaf) (h : Tables Of leaf structuralKey s) (hf : f.Clean) {base : Handle}
    {old : R.Node} (hold : s.nodes room (R.handleHash base) = some old) :
    (s.appendIncremental structuralKey f room key id base lattice).2.isOk =
      (R.persistMutation old (structuralKey room) (s.keys.short key)
        (some ((s.events.number id).short id))).isOk := by
  obtain ⟨hnodes, hdurable, hids⟩ := hf
  obtain ⟨hof, -, hknown⟩ := h.nodes hold
  unfold Service.appendIncremental
  rw [Service.getNode_eq hnodes hold, hdurable]
  simp only
  cases hmut : R.persistMutation old (structuralKey room) (s.keys.short key)
      (some ((s.events.number id).short id)) with
  | error e => rfl
  | ok result =>
    obtain ⟨new, displaced⟩ := result
    obtain ⟨-, -, rfl⟩ := hR.mutation hof hmut
    simp only
    unfold Service.putLeaf
    cases hleaf : (R.leaves old).lookup (s.keys.short key) with
    | none => rfl
    | some v =>
      obtain ⟨-, id', hid'⟩ := hknown _ v hleaf
      have hnamed := Enumeration.get?_of_le (Enumeration.le_number s.events id) hid'
      have hread := Service.getEventidFromShort_eq (s := { s with events := s.events.number id }) (hids v) hnamed
      simp only
      rw [hread]
      rfl

omit [AddCommGroup G] in
theorem isOk_rebuild {base : Option Handle} {map : ShortState} (hf : f.Clean)
    (hload : s.loadBase f room base (s.keys.short key) = .ok map) :
    (s.appendRebuild structuralKey f room key id base).2.isOk =
      (R.buildHamt (structuralKey room)
        (Service.shortLeaves (s.events.number id) (map.insert (s.keys.short key) id))).isOk := by
  unfold Service.appendRebuild
  rw [hload, hf.2.1]
  simp only
  rw [numberAll_current hload]
  cases R.buildHamt (structuralKey room)
      (Service.shortLeaves (s.events.number id) (map.insert (s.keys.short key) id)) with
  | error e => rfl
  | ok node => rfl

theorem isOk_paths (hR : R.Lawful Of leaf) (h : Tables Of leaf structuralKey s) (hf : f.Clean) (hf' : f'.Clean)
    {base : Handle} :
    (s.appendIncremental structuralKey f room key id base lattice).2.isOk =
      (s.appendRebuild structuralKey f' room key id (some base)).2.isOk := by
  cases hold : s.nodes room (R.handleHash base) with
  | none =>
    have hnode : ∀ fails, ∃ e, s.getNode fails room (R.handleHash base) = .error e := by
      intro fails
      unfold Service.getNode
      rw [hold]
      cases fails <;> exact ⟨_, rfl⟩
    obtain ⟨e, he⟩ := hnode f.nodes
    obtain ⟨e', he'⟩ := hnode f'.nodes
    unfold Service.appendIncremental Service.appendRebuild Service.loadBase Service.loadStateMapFromRootHandle
    rw [he]
    simp only
    rw [he']
    rfl
  | some old =>
    obtain ⟨hof, -, hknown⟩ := h.nodes hold
    have hbase : baseLeaves s room (some base) = R.leaves old := by
      unfold baseLeaves
      rw [Option.bind_some, hold]
    have hnamed : ∀ e ∈ (R.entries old).entries.filter (fun e => e.1 ≠ s.keys.short key),
        ∃ id, s.events.get? e.2 = some id := by
      intro e he
      apply (hknown e.1 e.2 _).2
      rw [Rezzy.leaves, Finmap.lookup_toFinmap]
      exact AList.mem_entries_iff.mp (List.mem_filter.mp he).1
    obtain ⟨map, hmap⟩ := Service.loadEventIds_ok hf'.2.2 hnamed
    have hload : s.loadBase f' room (some base) (s.keys.short key) = .ok map := by
      unfold Service.loadBase Service.loadStateMapFromRootHandle
      simp only
      rw [Service.getNode_eq hf'.1 hold]
      exact hmap
    rw [isOk_incremental hR h hf hold, isOk_rebuild hf' hload]
    apply hR.refuses hof
    rw [shortLeaves_current (hbase ▸ hknown) hload, hbase]
    rfl

/-- In every run in which the short state keys that the calls look up are found, every
returned root has the lattice of its leaves, which is stored for it, and the incremental
path of an append returns what the rebuild returns. -/
theorem stored_lattice_of_leaves (hR : R.Lawful Of leaf)
    (h : Reaches (step structuralKey stateResolution) FindsKeys (Service.empty : Service R) s) :
    (∀ room root t, (room, root, t) ∈ s.returned →
      root = R.fromLthash (R.structuralHash t) (latticeOf leaf s.keys s.events (R.leaves t)) ∧
      s.stateHamtRootLattices (R.structuralHash t) =
        some (R.toBytes (latticeOf leaf s.keys s.events (R.leaves t)))) ∧
    ∀ f f' room key id base lattice,
      let s' := { s with keys := s.keys.number key }
      (s'.getRootLattice f.lattice base).2 = some lattice → f'.Answers (s'.rebuildKeys room key (some base)) →
      SameRoot (s'.appendIncremental structuralKey f room key id base lattice)
          (s'.appendRebuild structuralKey f' room key id (some base)) ∧
        (f.Clean → f'.Clean → (s'.appendIncremental structuralKey f room key id base lattice).2.isOk =
          (s'.appendRebuild structuralKey f' room key id (some base)).2.isOk) := by
  have hsound := sound_of_reaches hR h
  refine ⟨fun room root t hmem => ?_, fun f f' room key id base lattice => ?_⟩
  · have hpublished := hsound.returned hmem
    exact ⟨hpublished.root, hpublished.stored⟩
  · intro s' hread hanswers
    have htables := hsound.tables.number (Enumeration.le_number s.keys key) s.events.le_refl
    have hkey := s.keys.get?_short_number key
    obtain ⟨-, -, -, hlattice⟩ := getRootLattice_spec hR htables f.lattice base
    have hinc : Appended Of leaf structuralKey s' room key id _ _ :=
      appended_incremental (f := f) hR htables hkey fun old hold =>
        hlattice lattice old hread (htables.nodes hold).2.1
    have hreb : Appended Of leaf structuralKey s' room key id _ _ :=
      appended_rebuild (f := f') hR htables hkey hanswers
    exact ⟨hinc.same hR hreb, fun hf hf' => isOk_paths hR htables hf hf'⟩

end

/-! ## A library that counts -/

def mutateLeaves (m : Leaves) (c : Nat × Option Nat) : Leaves :=
  match c.2 with
  | some v => m.insert c.1 v
  | none => m.erase c.1

theorem toFinmap_mutateLeaves (m : Leaves) (c : Nat × Option Nat) :
    (mutateLeaves m c).toFinmap = m.toFinmap.mutate c := by
  obtain ⟨k, v⟩ := c
  cases v with
  | some v => exact (Finmap.insert_toFinmap k v m).symm
  | none => exact (Finmap.erase_toFinmap k m).symm

theorem toFinmap_foldl_mutateLeaves (l : List (Nat × Option Nat)) (m : Leaves) :
    (l.foldl mutateLeaves m).toFinmap = m.toFinmap.mutateAll l := by
  induction l generalizing m with
  | nil => rfl
  | cons c l ih =>
    unfold Finmap.mutateAll at ih ⊢
    rw [List.foldl_cons, List.foldl_cons, ih, toFinmap_mutateLeaves]

abbrev TallyHash : Type := RoomId × Finmap fun _ : Nat => Nat

def weight (id : EventId) : Fin 256 := if id = "$create" then 1 else 2

def byteOf (g : Fin 256) : Bytes := UInt8.ofNat g.val :: List.replicate (latticeLen - 1) 0

theorem length_byteOf (g : Fin 256) : (byteOf g).length = latticeLen := by
  unfold byteOf
  rw [List.length_cons, List.length_replicate]
  rfl

def ofByte (raw : Bytes) : Option (Fin 256) := raw.head?.map fun b => Fin.ofNat 256 b.toNat

theorem ofByte_byteOf (g : Fin 256) : ofByte (byteOf g) = some g := by
  unfold ofByte byteOf
  rw [List.head?_cons, Option.map_some, UInt8.toNat_ofNat', Option.some.injEq]
  apply Fin.ext
  have hg := g.isLt
  rw [Fin.val_ofNat]
  omega

def tally : Rezzy RoomId TallyHash (TallyHash × Fin 256) (Fin 256) where
  Node := RoomId × Leaves
  structuralHash t := (t.1, t.2.toFinmap)
  entries t := t.2
  buildHamt key l := .ok (key, l)
  persistMutation t key k v := .ok ((key, mutateLeaves t.2 (k, v)), t.2.lookup k)
  persistMutations t key l := .ok (key, l.foldl mutateLeaves t.2)
  default := 0
  insert g _ _ id := g + weight id
  replace g _ _ old new := g - weight old + weight new
  toBytes := byteOf
  fromBytes := ofByte
  fromLthash hash g := (hash, g)
  handleHash root := root.1

theorem tally_lawful : tally.Lawful (fun key t => t.1 = key) fun _ _ id => weight id where
  build h := by
    cases h
    exact ⟨rfl, rfl⟩
  mutation h hmut := by
    cases hmut
    exact ⟨rfl, toFinmap_mutateLeaves _ _, (Finmap.lookup_toFinmap _ _).symm⟩
  mutations h hmut := by
    cases hmut
    exact ⟨rfl, toFinmap_foldl_mutateLeaves _ _⟩
  refuses _ _ := rfl
  hash_eq h h' hleaves := Prod.ext (h.trans h'.symm) hleaves
  leaves_eq h := (Prod.mk.inj h).2
  default := rfl
  insert := rfl
  replace := rfl
  fromBytes := ofByte_byteOf _
  length := length_byteOf _
  handleHash := rfl

/-- The create event, as another writer stores it. -/
def createState : NamedState := (∅ : NamedState).insert ("m.room.create", "") "$create"

def toFirst (_ : RoomId) (forks : List NamedState) : Except StateError NamedState :=
  .ok (forks.headD ∅)

def created : Pdu := stateEvent "$create" "@alice:a" .roomCreate "" [] []

def topicSet : Pdu := stateEvent "$topic" "@alice:a" (.other "m.room.topic") "" [] ["$create"]

def createRoot : TallyHash × Fin 256 := (("!r:a", ((∅ : Leaves).insert 0 0).toFinmap), 0)

def topicRoot : TallyHash × Fin 256 := (("!r:a", (((∅ : Leaves).insert 0 0).insert 1 1).toFinmap), 0)

/-- The short state key of the create event cannot be read. -/
def firstKeyUnread : Faults := { Faults.none with stateKey := fun k => k = 0 }

theorem stored_lattice_of_leaves_topic : ∃ s : Service tally, s.returned.length = 3 ∧
    (∀ room root t, (room, root, t) ∈ s.returned →
      root = tally.fromLthash (tally.structuralHash t)
        (latticeOf (fun _ _ id => weight id) s.keys s.events (tally.leaves t)) ∧
      s.stateHamtRootLattices (tally.structuralHash t) =
        some (tally.toBytes (latticeOf (fun _ _ id => weight id) s.keys s.events (tally.leaves t)))) ∧
    ∀ f f' room key id base lattice,
      let s' := { s with keys := s.keys.number key }
      (s'.getRootLattice f.lattice base).2 = some lattice → f'.Answers (s'.rebuildKeys room key (some base)) →
      SameRoot (s'.appendIncremental (fun room => room) f room key id base lattice)
          (s'.appendRebuild (fun room => room) f' room key id (some base)) ∧
        (f.Clean → f'.Clean → (s'.appendIncremental (fun room => room) f room key id base lattice).2.isOk =
          (s'.appendRebuild (fun room => room) f' room key id (some base)).2.isOk) := by
  -- the create event by a rebuild, the topic incrementally, and a resolution of both
  have hrun : Reaches (step (fun room => room) toFirst) FindsKeys (Service.empty : Service tally) _ :=
    .next (.resolve Faults.none "!r:a" ∅)
      (.next (.setRoomState "!r:a" topicRoot)
        (.next (.publish 1)
          (.next (.append Faults.none "!r:a" topicSet (some createRoot))
            (.next (.publish 0)
              (.next (.append Faults.none "!r:a" created none) .init (fun _ _ _ _ _ _ => rfl) rfl)
              trivial rfl)
            (fun _ _ _ _ _ _ => rfl) rfl)
          trivial rfl)
        trivial rfl)
      (fun _ _ _ _ _ _ => rfl) rfl
  refine ⟨_, ?_, stored_lattice_of_leaves tally_lawful hrun⟩
  decide

theorem stored_lattice_lost : tally.Lawful (fun key t => t.1 = key) (fun _ _ id => weight id) ∧
    ∃ s : Service tally, Reaches (step (fun room => room) toFirst) (fun _ _ => True) Service.empty s ∧
      ∃ r ∈ s.returned, s.stateHamtRootLattices (tally.structuralHash r.2.2) ≠
        some (tally.toBytes (latticeOf (fun _ _ id => weight id) s.keys s.events (tally.leaves r.2.2))) := by
  refine ⟨tally_lawful, _, .next (.append firstKeyUnread "!r:a" topicSet (some createRoot))
    (.next (.storeState "!r:a" createState false) .init trivial rfl) trivial rfl, ?_⟩
  refine ⟨_, List.mem_append.mpr (.inr (List.mem_singleton.mpr rfl)), ?_⟩
  decide

end Congruent.RoomLattice
