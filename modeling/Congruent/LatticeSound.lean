import Congruent.LatticeLeaves

/-!
# Sound lattices

A stored lattice is right when it is the sum over the leaves of the trees with its hash.
Each writer of lattices leaves right ones, as long as the short state keys that it looks up
are found.
-/

namespace Congruent.RoomLattice

section
variable {SKey Hash Handle G : Type} {R : Rezzy SKey Hash Handle G}

/-! ## Growth -/

/-- Numbers stay, and what has a lattice keeps one. -/
structure Grows (s s' : Service R) : Prop where
  keys : s.keys ≤ s'.keys
  events : s.events ≤ s'.events
  table : ∀ {hash}, s.stateHamtRootLattices hash ≠ none → s'.stateHamtRootLattices hash ≠ none

section
variable {s s' s'' : Service R} {root : Handle} {hash : Hash}

theorem Grows.refl (s : Service R) : Grows s s := ⟨s.keys.le_refl, s.events.le_refl, fun h => h⟩

theorem Grows.trans (h : Grows s s') (h' : Grows s' s'') : Grows s s'' :=
  ⟨Enumeration.le_trans h.keys h'.keys, Enumeration.le_trans h.events h'.events, fun hne => h'.table (h.table hne)⟩

theorem Grows.number {keys : Enumeration NamedKey} {events : Enumeration EventId} (hk : s.keys ≤ keys)
    (he : s.events ≤ events) : Grows s { s with keys := keys, events := events } := ⟨hk, he, fun h => h⟩

variable [DecidableEq Hash]

theorem update_ne_none {table : Hash → Option Bytes} {named : Hash} {bytes : Bytes} (h : table hash ≠ none) :
    Function.update table named (some bytes) hash ≠ none := by
  by_cases heq : hash = named
  · subst heq
    simp
  · rw [Function.update_of_ne heq]
    exact h

theorem Grows.persist (lattice : G) : Grows s (s.persistRootLattice root lattice) :=
  ⟨s.keys.le_refl, s.events.le_refl, update_ne_none⟩

end

end

section
variable {SKey Hash Handle G : Type} [AddCommGroup G] {R : Rezzy SKey Hash Handle G} {Of : SKey → R.Node → Prop}
  {leaf : String → String → String → G} {structuralKey : RoomId → SKey}

/-! ## The lattice of leaves -/

def leafTerm (leaf : String → String → String → G) (keys : Enumeration NamedKey) (events : Enumeration EventId)
    (k v : Nat) : G :=
  match keys.get? k, events.get? v with
  | some key, some id => leaf key.1 key.2 id
  | _, _ => 0

/-- The hash of the leaves of a tree. -/
def latticeOf (leaf : String → String → String → G) (keys : Enumeration NamedKey) (events : Enumeration EventId)
    (m : Finmap fun _ : Nat => Nat) : G := m.sumOf (leafTerm leaf keys events)

section
variable {keys keys' : Enumeration NamedKey} {events events' : Enumeration EventId} {m : Finmap fun _ : Nat => Nat}
  {k v : Nat} {key : NamedKey} {id : EventId}

theorem leafTerm_eq (hk : keys.get? k = some key) (hv : events.get? v = some id) :
    leafTerm leaf keys events k v = leaf key.1 key.2 id := by
  unfold leafTerm
  rw [hk, hv]

theorem latticeOf_mono (h : Known keys events m) (hk : keys ≤ keys') (he : events ≤ events') :
    latticeOf leaf keys' events' m = latticeOf leaf keys events m := by
  apply Finmap.sumOf_congr
  intro k v hm
  obtain ⟨⟨key, hkey⟩, id, hid⟩ := h k v hm
  rw [leafTerm_eq hkey hid, leafTerm_eq (Enumeration.get?_of_le hk hkey) (Enumeration.get?_of_le he hid)]

end

/-! ## Sound tables -/

def Right (leaf : String → String → String → G) (s : Service R) (hash : Hash) (raw : Bytes) : Prop :=
  ∃ t, R.structuralHash t = hash ∧ Known s.keys s.events (R.leaves t) ∧
    raw = R.toBytes (latticeOf leaf s.keys s.events (R.leaves t))

structure Tables (Of : SKey → R.Node → Prop) (leaf : String → String → String → G) (structuralKey : RoomId → SKey)
    (s : Service R) : Prop where
  nodes : ∀ {room hash t}, s.nodes room hash = some t →
    Of (structuralKey room) t ∧ R.structuralHash t = hash ∧ Known s.keys s.events (R.leaves t)
  table : ∀ {hash raw}, s.stateHamtRootLattices hash = some raw → Right leaf s hash raw
  cache : ∀ {hash raw}, s.latticeCache hash = some raw → Right leaf s hash raw

structure Published (Of : SKey → R.Node → Prop) (leaf : String → String → String → G)
    (structuralKey : RoomId → SKey)
    (s : Service R) (room : RoomId) (root : Handle) (t : R.Node) : Prop where
  of : Of (structuralKey room) t
  known : Known s.keys s.events (R.leaves t)
  root : root = R.fromLthash (R.structuralHash t) (latticeOf leaf s.keys s.events (R.leaves t))
  stored : s.stateHamtRootLattices (R.structuralHash t) =
    some (R.toBytes (latticeOf leaf s.keys s.events (R.leaves t)))

structure Sound (Of : SKey → R.Node → Prop) (leaf : String → String → String → G) (structuralKey : RoomId → SKey)
    (s : Service R) : Prop where
  tables : Tables Of leaf structuralKey s
  returned : ∀ {room root t}, (room, root, t) ∈ s.returned → Published Of leaf structuralKey s room root t

variable {s s' s'' : Service R} {room : RoomId} {root : Handle} {t : R.Node} {hash : Hash} {raw : Bytes}

theorem Right.mono (h : Right leaf s hash raw) (hk : s.keys ≤ s'.keys) (he : s.events ≤ s'.events) :
    Right leaf s' hash raw := by
  obtain ⟨t, ht, hknown, rfl⟩ := h
  exact ⟨t, ht, hknown.mono hk he, by rw [latticeOf_mono hknown hk he]⟩

theorem Right.eq (hR : R.Lawful Of leaf) (h : Right leaf s hash raw) (ht : R.structuralHash t = hash) :
    raw = R.toBytes (latticeOf leaf s.keys s.events (R.leaves t)) := by
  obtain ⟨t', ht', -, rfl⟩ := h
  rw [hR.leaves_eq (ht'.trans ht.symm)]

theorem Published.mono (hR : R.Lawful Of leaf) (h : Published Of leaf structuralKey s room root t) (hg : Grows s s')
    (htables : Tables Of leaf structuralKey s') : Published Of leaf structuralKey s' room root t := by
  have hsame : latticeOf leaf s'.keys s'.events (R.leaves t) = latticeOf leaf s.keys s.events (R.leaves t) :=
    latticeOf_mono h.known hg.keys hg.events
  refine ⟨h.of, h.known.mono hg.keys hg.events, by rw [hsame]; exact h.root, ?_⟩
  have hsome : s.stateHamtRootLattices (R.structuralHash t) ≠ none := by
    rw [h.stored]
    simp
  obtain ⟨raw, hraw⟩ := Option.ne_none_iff_exists'.mp (hg.table hsome)
  rw [hraw, (htables.table hraw).eq hR rfl]

theorem sound_empty : Sound Of leaf structuralKey (Service.empty : Service R) := by
  refine ⟨⟨fun h => ?_, fun h => ?_, fun h => ?_⟩, fun h => ?_⟩ <;> cases h

theorem Sound.of_grows (hR : R.Lawful Of leaf) (h : Sound Of leaf structuralKey s)
    (htables : Tables Of leaf structuralKey s') (hg : Grows s s') (hret : s'.returned = s.returned) :
    Sound Of leaf structuralKey s' :=
  ⟨htables, fun hmem => (h.returned (hret ▸ hmem)).mono hR hg htables⟩

theorem Tables.number (h : Tables Of leaf structuralKey s) {keys : Enumeration NamedKey}
    {events : Enumeration EventId} (hk : s.keys ≤ keys) (he : s.events ≤ events) :
    Tables Of leaf structuralKey { s with keys := keys, events := events } := by
  refine ⟨fun hnode => ?_, fun hraw => ?_, fun hraw => ?_⟩
  · obtain ⟨hof, hhash, hknown⟩ := h.nodes hnode
    exact ⟨hof, hhash, hknown.mono hk he⟩
  · exact (h.table hraw).mono hk he
  · exact (h.cache hraw).mono hk he

theorem right_latticeOf (hR : R.Lawful Of leaf) (hknown : Known s.keys s.events (R.leaves t)) {lattice : G}
    (hl : lattice = latticeOf leaf s.keys s.events (R.leaves t)) :
    Right leaf s (R.handleHash (R.fromLthash (R.structuralHash t) lattice)) (R.toBytes lattice) :=
  ⟨t, hR.handleHash.symm, hknown, by rw [hl]⟩

section
variable [DecidableEq Hash]

theorem right_update {table : Hash → Option Bytes} {named : Hash} {bytes : Bytes}
    (h : ∀ {hash raw}, table hash = some raw → Right leaf s hash raw) (hnew : Right leaf s named bytes)
    (hraw : Function.update table named (some bytes) hash = some raw) : Right leaf s hash raw := by
  by_cases heq : hash = named
  · subst heq
    rw [Function.update_self, Option.some.injEq] at hraw
    exact hraw ▸ hnew
  · rw [Function.update_of_ne heq] at hraw
    exact h hraw

theorem Tables.persist (hR : R.Lawful Of leaf) (h : Tables Of leaf structuralKey s)
    (hknown : Known s.keys s.events (R.leaves t)) {lattice : G}
    (hl : lattice = latticeOf leaf s.keys s.events (R.leaves t)) :
    Tables Of leaf structuralKey (s.persistRootLattice (R.fromLthash (R.structuralHash t) lattice) lattice) :=
  ⟨h.nodes, right_update h.table (right_latticeOf hR hknown hl), right_update h.cache
    (right_latticeOf hR hknown hl)⟩

theorem published_persist (hR : R.Lawful Of leaf) (hof : Of (structuralKey room) t)
    (hknown : Known s.keys s.events (R.leaves t)) {lattice : G}
    (hl : lattice = latticeOf leaf s.keys s.events (R.leaves t)) :
    Published Of leaf structuralKey (s.persistRootLattice (R.fromLthash (R.structuralHash t) lattice) lattice) room
      (R.fromLthash (R.structuralHash t) lattice) t := by
  refine ⟨hof, hknown, by rw [hl]; rfl, ?_⟩
  subst hl
  unfold Service.persistRootLattice
  simp only [hR.handleHash, Function.update_self]

end

/-! ## What the writers compute -/

variable {f : Faults} {m : Finmap fun _ : Nat => Nat} {k v : Nat} {key : NamedKey} {id : EventId} {lattice : G}

theorem putLeaf_eq (hR : R.Lawful Of leaf) (hk : s.keys.get? k = some key)
    (hv : s.events.get? v = some id)
    (h : s.putLeaf f (latticeOf leaf s.keys s.events m) key (m.lookup k) id = .ok lattice) :
    lattice = latticeOf leaf s.keys s.events (m.insert k v) := by
  unfold latticeOf at h ⊢
  cases hold : m.lookup k with
  | none =>
    simp only [Service.putLeaf, hold, Except.ok.injEq, hR.insert] at h
    rw [← h, Finmap.sumOf_insert_of_notMem _ (Finmap.lookup_eq_none.mp hold), leafTerm_eq hk hv, add_comm]
  | some old =>
    simp only [Service.putLeaf, hold] at h
    cases hid : s.getEventidFromShort f old with
    | error e => simp [hid] at h
    | ok oldId =>
      simp only [hid, Except.ok.injEq, hR.replace] at h
      rw [← h, Finmap.sumOf_insert_of_lookup _ hold, leafTerm_eq hk hv,
        leafTerm_eq hk (Service.getEventidFromShort_ok hid)]

theorem putShort_eq (hR : R.Lawful Of leaf) {e : Σ _ : Nat, EventId} (hk : s.keys.get? e.1 = some key)
    (hv : s.events.get? v = some e.2) (hf : f.stateKey e.1 = false) (g : G) :
    s.putShort f g e = g + leafTerm leaf s.keys s.events e.1 v := by
  unfold Service.putShort
  rw [Service.getStatekeyFromShort_eq hf hk, leafTerm_eq hk hv]
  exact hR.insert

theorem putEntry_eq (hR : R.Lawful Of leaf) {e : Σ _ : Nat, Nat} (hk : s.keys.get? e.1 = some key)
    (hv : s.events.get? e.2 = some id) (hf : f.stateKey e.1 = false) (hf' : f.eventId e.2 = false) (g : G) :
    s.putEntry f g e = g + leafTerm leaf s.keys s.events e.1 e.2 := by
  unfold Service.putEntry
  rw [Service.getStatekeyFromShort_eq hf hk, Service.getEventidFromShort_eq hf' hv, leafTerm_eq hk hv]
  exact hR.insert

theorem latticeForShortEntries_eq (hR : R.Lawful Of leaf) {entries : Leaves} (hnum : s.Numbered entries.entries)
    (hf : f.Answers entries.keys) (hf' : ∀ e ∈ entries.entries, f.eventId e.2 = false) :
    s.latticeForShortEntries f entries.entries = latticeOf leaf s.keys s.events entries.toFinmap := by
  have hterm : ∀ e ∈ entries.entries, ∀ g, s.putEntry f g e = g + leafTerm leaf s.keys s.events e.1 e.2 := by
    intro e he g
    obtain ⟨⟨key, hkey⟩, id, hid⟩ := hnum.names he
    exact putEntry_eq hR hkey hid (hf e.1 (List.mem_map_of_mem he)) (hf' e he) g
  unfold Service.latticeForShortEntries latticeOf
  rw [List.foldl_eq_add_sum hterm, hR.default, zero_add, Finmap.sumOf_toFinmap]

theorem foldl_putShort (hR : R.Lawful Of leaf) {events : Enumeration EventId} {current : ShortState}
    (hkeys : ∀ e ∈ current.entries, ∃ key, s.keys.get? e.1 = some key)
    (hids : ∀ e ∈ current.entries, e.2 ∈ events.items) (hfound : ∀ e ∈ current.entries, f.stateKey e.1 = false) :
    current.entries.foldl (s.putShort f) R.default =
      latticeOf leaf s.keys events (Service.shortLeaves events current).toFinmap := by
  have hterm : ∀ e ∈ current.entries, ∀ g,
      s.putShort f g e = g + leafTerm leaf s.keys events e.1 (events.short e.2) := by
    intro e he g
    obtain ⟨key, hkey⟩ := hkeys e he
    exact putShort_eq (s := { s with events := events }) hR hkey (Enumeration.get?_short (hids e he))
      (hfound e he) g
  unfold latticeOf
  rw [List.foldl_eq_add_sum hterm, hR.default, zero_add, Finmap.sumOf_toFinmap]
  unfold Service.shortLeaves AList.mapValues
  rw [List.map_map]
  rfl

theorem latticeOfNamed_eq (hR : R.Lawful Of leaf) {keys : Enumeration NamedKey} {events : Enumeration EventId}
    {state : NamedState} (hkeys : ∀ e ∈ state.entries, e.1 ∈ keys.items)
    (hids : ∀ e ∈ state.entries, e.2 ∈ events.items) :
    Service.latticeOfNamed R state =
      latticeOf leaf keys events (Service.namedLeaves keys events state).toAList.toFinmap := by
  have hterm : ∀ e ∈ state.entries, ∀ g,
      R.insert g e.1.1 e.1.2 e.2 = g + leafTerm leaf keys events (keys.short e.1) (events.short e.2) := by
    intro e he g
    rw [leafTerm_eq (Enumeration.get?_short (hkeys e he)) (Enumeration.get?_short (hids e he))]
    exact hR.insert
  have hentries : (Service.namedLeaves keys events state).toAList.entries.Perm _ := entries_namedLeaves hkeys
  have hperm := hentries.map fun e => leafTerm leaf keys events e.1 e.2
  unfold Service.latticeOfNamed latticeOf
  rw [List.foldl_eq_add_sum hterm, hR.default, zero_add, Finmap.sumOf_toFinmap, hperm.sum_eq]
  unfold Service.namedLeaves
  rw [List.map_map]
  rfl

/-- After the changes of a resolution the tree has the leaves of the resolved state, and its
lattice is that of the resolved state. -/
theorem resolved_leaves (hR : R.Lawful Of leaf) (hknown : Known s.keys s.events (R.leaves t)) {ids : ShortState}
    (hload : s.loadEventIds f (R.entries t).entries = .ok ids) (hf : f.Answers (R.entries t).keys)
    {state : NamedState} (hkeys : s.keys ≤ s'.keys) (hevents : s.events ≤ s'.events)
    (hstate : ∀ e ∈ state.entries, e.1 ∈ s'.keys.items) (hnames : ∀ e ∈ state.entries, e.2 ∈ s'.events.items) :
    let mutations := s'.changedEntries (s.namedState f ids.entries) state ++
      s'.droppedEntries (s.namedState f ids.entries) state
    Known s'.keys s'.events ((R.leaves t).mutateAll mutations) ∧
      Service.latticeOfNamed R state = latticeOf leaf s'.keys s'.events ((R.leaves t).mutateAll mutations) := by
  intro mutations
  have hids : ∀ k, ids.lookup k = ((R.leaves t).lookup k).bind s.events.get? := by
    intro k
    rw [Service.lookup_loadEventIds hload]
    rfl
  have hfound : ∀ k v, (R.leaves t).lookup k = some v → f.stateKey k = false := by
    intro k v hk
    apply hf
    exact AList.lookup_isSome.mp (by
      rw [← Finmap.lookup_toFinmap]
      exact Option.isSome_iff_exists.mpr ⟨v, hk⟩)
  have hleaves : (R.leaves t).mutateAll mutations =
      (Service.namedLeaves s'.keys s'.events state).toAList.toFinmap :=
    mutateAll_resolved hknown hids hfound hkeys hevents hstate
  rw [hleaves]
  exact ⟨known_namedLeaves hstate hnames, latticeOfNamed_eq hR hstate hnames⟩

/-! ## Calls -/

/-- What a call for a room leaves behind, and what it returns. -/
structure Call (Of : SKey → R.Node → Prop) (leaf : String → String → String → G) (structuralKey : RoomId → SKey)
    (s : Service R) (room : RoomId) (r : Service R × Except StateError (Handle × R.Node)) : Prop where
  tables : Tables Of leaf structuralKey r.1
  grows : Grows s r.1
  returned : r.1.returned = s.returned
  published : ∀ {root t}, r.2 = .ok (root, t) → Published Of leaf structuralKey r.1 room root t

theorem Call.refused (htables : Tables Of leaf structuralKey s') (hg : Grows s s') (hret : s'.returned = s.returned)
    (e : StateError) : Call Of leaf structuralKey s room (s', .error e) :=
  ⟨htables, hg, hret, fun h => by cases h⟩

theorem Call.after {r : Service R × Except StateError (Handle × R.Node)} (h : Call Of leaf structuralKey s' room r)
    (hg : Grows s s') (hret : s'.returned = s.returned) : Call Of leaf structuralKey s room r :=
  ⟨h.tables, hg.trans h.grows, h.returned.trans hret, h.published⟩

theorem Sound.giveBack (hR : R.Lawful Of leaf) (h : Sound Of leaf structuralKey s)
    {r : Service R × Except StateError (Handle × R.Node)} (hcall : Call Of leaf structuralKey s room r) :
    Sound Of leaf structuralKey (giveBack room r) := by
  have hsound := h.of_grows hR hcall.tables hcall.grows hcall.returned
  unfold RoomLattice.giveBack
  split
  · rename_i root node hok
    have hnew := hcall.published hok
    refine ⟨⟨hsound.tables.nodes, hsound.tables.table, hsound.tables.cache⟩, fun {room' root' t} hmem => ?_⟩
    rcases List.mem_append.mp hmem with hmem | hmem
    · obtain ⟨hof, hknown, hroot, hstored⟩ := hsound.returned hmem
      exact ⟨hof, hknown, hroot, hstored⟩
    · obtain ⟨rfl, hrest⟩ := Prod.mk.inj (List.mem_singleton.mp hmem)
      obtain ⟨rfl, rfl⟩ := Prod.mk.inj hrest
      exact ⟨hnew.of, hnew.known, hnew.root, hnew.stored⟩
  · exact hsound

structure Appended (Of : SKey → R.Node → Prop) (leaf : String → String → String → G) (structuralKey : RoomId → SKey)
    (s : Service R) (room : RoomId) (key : NamedKey) (id : EventId) (base : Finmap fun _ : Nat => Nat)
    (r : Service R × Except StateError (Handle × R.Node)) : Prop extends Call Of leaf structuralKey s room r where
  leaves : ∀ {root t}, r.2 = .ok (root, t) →
    R.leaves t = base.insert (s.keys.short key) ((s.events.number id).short id)
  keys_eq : ∀ {root t}, r.2 = .ok (root, t) → r.1.keys = s.keys
  events_eq : ∀ {root t}, r.2 = .ok (root, t) → r.1.events = s.events.number id

theorem Appended.of_error {base : Finmap fun _ : Nat => Nat} {e : StateError} {s' : Service R}
    (h : Call Of leaf structuralKey s room (s', .error e)) :
    Appended Of leaf structuralKey s room key id base (s', .error e) where
  toCall := h
  leaves h := by cases h
  keys_eq h := by cases h
  events_eq h := by cases h

theorem Tables.known_base (h : Tables Of leaf structuralKey s) (base : Option Handle) :
    Known s.keys s.events (baseLeaves s room base) := by
  unfold baseLeaves
  cases hnode : base.bind fun root => s.nodes room (R.handleHash root) with
  | none => exact fun k v hm => by cases hm
  | some node =>
    obtain ⟨root, -, hnode⟩ := Option.bind_eq_some_iff.mp hnode
    exact (h.nodes hnode).2.2

section
variable [DecidableEq Hash]

theorem Call.persist (hR : R.Lawful Of leaf) (htables : Tables Of leaf structuralKey s') (hg : Grows s s')
    (hret : s'.returned = s.returned) (hof : Of (structuralKey room) t)
    (hknown : Known s'.keys s'.events (R.leaves t)) (hl : lattice = latticeOf leaf s'.keys s'.events (R.leaves t)) :
    Call Of leaf structuralKey s room (s'.persistRootLattice (R.fromLthash (R.structuralHash t) lattice) lattice,
      .ok (R.fromLthash (R.structuralHash t) lattice, t)) := by
  refine ⟨htables.persist hR hknown hl, hg.trans (.persist lattice), hret, fun h => ?_⟩
  cases h
  exact published_persist hR hof hknown hl

/-- The incremental path, with the lattice of the leaves of the base. -/
theorem appended_incremental (hR : R.Lawful Of leaf) (h : Tables Of leaf structuralKey s) {base : Handle}
    (hkey : s.keys.get? (s.keys.short key) = some key)
    (hlattice : ∀ old, s.nodes room (R.handleHash base) = some old →
      lattice = latticeOf leaf s.keys s.events (R.leaves old)) :
    Appended Of leaf structuralKey s room key id (baseLeaves s room (some base))
      (s.appendIncremental structuralKey f room key id base lattice) := by
  have hle := Enumeration.le_number s.events id
  have hnumber := h.number s.keys.le_refl hle
  have hgrows := Grows.number (s := s) s.keys.le_refl hle
  have hid := s.events.get?_short_number id
  unfold Service.appendIncremental
  cases hnode : s.getNode f.nodes room (R.handleHash base) with
  | error e => exact .of_error (.refused h (.refl s) rfl e)
  | ok t =>
    have hold := Service.getNode_ok hnode
    obtain ⟨hof, -, hknown⟩ := h.nodes hold
    have hbase : baseLeaves s room (some base) = R.leaves t := by
      unfold baseLeaves
      rw [Option.bind_some, hold]
    rw [hlattice t hold, ← latticeOf_mono hknown s.keys.le_refl hle, hbase]
    simp only
    cases hmut : R.persistMutation t (structuralKey room) (s.keys.short key)
        (some ((s.events.number id).short id)) with
    | error e => exact .of_error (.refused hnumber hgrows rfl _)
    | ok result =>
      obtain ⟨new, displaced⟩ := result
      obtain ⟨hofNew, hleaves, rfl⟩ := hR.mutation hof hmut
      simp only
      cases hput : Service.putLeaf { s with events := s.events.number id } f
          (latticeOf leaf s.keys (s.events.number id) (R.leaves t)) key
          ((R.leaves t).lookup (s.keys.short key)) id with
      | error e => exact .of_error (.refused hnumber hgrows rfl e)
      | ok lattice =>
        have hlatticeNew := putLeaf_eq (s := { s with events := s.events.number id }) hR hkey hid hput
        simp only
        cases f.durable with
        | true => exact .of_error (.refused hnumber hgrows rfl _)
        | false =>
          have hknownNew := (hknown.mono s.keys.le_refl hle).insert hkey hid
          have heq : R.leaves new = (R.leaves t).insert (s.keys.short key)
              ((s.events.number id).short id) := hleaves
          rw [← heq] at hlatticeNew hknownNew
          have hcall : Call Of leaf structuralKey s room _ :=
            .persist hR hnumber hgrows rfl hofNew hknownNew hlatticeNew
          refine { hcall with leaves := fun h => ?_, keys_eq := fun _ => rfl, events_eq := fun _ => rfl }
          cases h
          exact heq

/-- The rebuild path, where the state keys are found. -/
theorem appended_rebuild (hR : R.Lawful Of leaf) (h : Tables Of leaf structuralKey s) {base : Option Handle}
    (hkey : s.keys.get? (s.keys.short key) = some key) (hf : f.Answers (s.rebuildKeys room key base)) :
    Appended Of leaf structuralKey s room key id (baseLeaves s room base)
      (s.appendRebuild structuralKey f room key id base) := by
  have hle := Enumeration.le_number s.events id
  have hnumber := h.number s.keys.le_refl hle
  have hgrows := Grows.number (s := s) s.keys.le_refl hle
  have hbase : Known s.keys s.events (baseLeaves s room base) := h.known_base base
  unfold Service.appendRebuild
  cases hload : s.loadBase f room base (s.keys.short key) with
  | error e => exact .of_error (.refused h (.refl s) rfl e)
  | ok map =>
    simp only
    rw [numberAll_current hload]
    cases hbuild : R.buildHamt (structuralKey room)
        (Service.shortLeaves (s.events.number id) (map.insert (s.keys.short key) id)) with
    | error e => exact .of_error (.refused hnumber hgrows rfl _)
    | ok node =>
      obtain ⟨hof, hleaves⟩ := hR.build hbuild
      have hkeys : ∀ e ∈ (map.insert (s.keys.short key) id).entries, ∃ key', s.keys.get? e.1 = some key' := by
        intro e he
        rcases mem_current hload he with ⟨hk, -⟩ | ⟨v, hb, -⟩
        · exact ⟨key, hk ▸ hkey⟩
        · exact (hbase e.1 v hb).1
      have hfound : ∀ e ∈ (map.insert (s.keys.short key) id).entries, f.stateKey e.1 = false := by
        intro e he
        rcases mem_current hload he with ⟨hk, -⟩ | ⟨v, hb, -⟩
        · exact hf e.1 (hk ▸ List.mem_cons_self)
        · exact hf e.1 (mem_rebuildKeys hb)
      have hids : ∀ e ∈ (map.insert (s.keys.short key) id).entries, e.2 ∈ (s.events.number id).items := by
        intro e he
        rcases mem_current hload he with ⟨-, hid⟩ | ⟨v, -, hv⟩
        · exact Enumeration.mem_number.mpr (.inr hid)
        · exact Enumeration.mem_number.mpr (.inl (Enumeration.mem_of_get? hv))
      have hknown := known_shortLeaves hkeys hids
      have hlattice := foldl_putShort hR hkeys hids hfound
      rw [← hleaves] at hknown hlattice
      have hcall : Call Of leaf structuralKey s room _ := .persist hR hnumber hgrows rfl hof hknown hlattice
      simp only
      cases f.durable with
      | true => exact .of_error (.refused hcall.tables hcall.grows hcall.returned _)
      | false =>
        refine { hcall with leaves := fun h => ?_, keys_eq := fun _ => rfl, events_eq := fun _ => rfl }
        cases h
        exact hleaves.trans (shortLeaves_current hbase hload)

theorem call_mutations (hR : R.Lawful Of leaf) (h : Tables Of leaf structuralKey s) {prev : Handle}
    {mutations : List (Nat × Option Nat)}
    (hafter : ∀ old, s.nodes room (R.handleHash prev) = some old →
      Known s.keys s.events ((R.leaves old).mutateAll mutations) ∧
      lattice = latticeOf leaf s.keys s.events ((R.leaves old).mutateAll mutations)) :
    Call Of leaf structuralKey s room (s.persistStateHamtMutations structuralKey f room prev
      mutations lattice) := by
  unfold Service.persistStateHamtMutations
  cases hnode : s.getNode f.nodes room (R.handleHash prev) with
  | error e => exact .refused h (.refl s) rfl e
  | ok old =>
    obtain ⟨hknown, hlattice⟩ := hafter old (Service.getNode_ok hnode)
    simp only
    cases hmut : R.persistMutations old (structuralKey room) mutations with
    | error e => exact .refused h (.refl s) rfl _
    | ok new =>
      obtain ⟨hof, hleaves⟩ := hR.mutations (h.nodes (Service.getNode_ok hnode)).1 hmut
      simp only
      cases f.durable with
      | true => exact .refused h (.refl s) rfl _
      | false =>
        rw [← hleaves] at hknown hlattice
        exact .persist hR h (.refl s) rfl hof hknown hlattice

variable {stateResolution : RoomId → List NamedState → Except StateError NamedState}

theorem call_resolve (hR : R.Lawful Of leaf) (h : Tables Of leaf structuralKey s) (incoming : ShortState)
    (hf : ∀ root node, s.roomidRoothandle room = some root → s.nodes room (R.handleHash root) = some node →
      f.Answers (R.entries node).keys) :
    Call Of leaf structuralKey s room (s.resolveState structuralKey stateResolution f room incoming) := by
  unfold Service.resolveState
  cases hroot : s.getRoomStateHamt f.pointer room with
  | error e => exact .refused h (.refl s) rfl _
  | ok root =>
    simp only
    cases hnode : s.getNode f.nodes room (R.handleHash root) with
    | error e => exact .refused h (.refl s) rfl e
    | ok node =>
      have hget := Service.getNode_ok hnode
      simp only
      cases hload : s.loadEventIds f (R.entries node).entries with
      | error e => exact .refused h (.refl s) rfl e
      | ok ids =>
        simp only
        cases stateResolution room [s.namedState f ids.entries, s.namedState f incoming.entries] with
        | error e => exact .refused h (.refl s) rfl e
        | ok state =>
          simp only
          have hkeys := Enumeration.le_trans (Enumeration.le_numberAll s.keys state.keys)
            (Enumeration.le_numberAll (s.keys.numberAll state.keys) (s.namedState f ids.entries).keys)
          have hevents := Enumeration.le_numberAll s.events (eventIds state)
          apply Call.after _ (.number hkeys hevents) rfl
          apply call_mutations hR (h.number hkeys hevents)
          intro old hold
          rw [hget, Option.some.injEq] at hold
          subst hold
          apply resolved_leaves hR (h.nodes hget).2.2 hload (hf root node (Service.getRoomStateHamt_ok hroot) hget)
            hkeys hevents
          · intro e he
            exact Enumeration.mem_numberAll.mpr
              (.inl (Enumeration.mem_numberAll.mpr (.inr (List.mem_map_of_mem he))))
          · intro e he
            exact Enumeration.mem_numberAll.mpr (.inr (List.mem_map_of_mem he))

end

end

end Congruent.RoomLattice
