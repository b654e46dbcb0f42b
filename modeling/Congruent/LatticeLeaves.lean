import Congruent.RoomLattice

/-!
# Leaves with names

The leaves of a tree stand for a state by types, state keys and event ids. What a rebuild
and a resolution put into a tree, by its leaves.
-/

namespace Congruent.RoomLattice

/-- The leaves have numbers that were given out. -/
def Known (keys : Enumeration NamedKey) (events : Enumeration EventId) (m : Finmap fun _ : Nat => Nat) : Prop :=
  ∀ k v, m.lookup k = some v → (∃ key, keys.get? k = some key) ∧ ∃ id, events.get? v = some id

section
variable {keys keys' : Enumeration NamedKey} {events events' : Enumeration EventId} {m : Finmap fun _ : Nat => Nat}
  {k v : Nat} {key : NamedKey} {id : EventId}

theorem Known.mono (h : Known keys events m) (hk : keys ≤ keys') (he : events ≤ events') : Known
    keys' events' m := by
  intro k v hm
  obtain ⟨⟨key, hkey⟩, id, hid⟩ := h k v hm
  exact ⟨⟨key, Enumeration.get?_of_le hk hkey⟩, id, Enumeration.get?_of_le he hid⟩

theorem Known.insert (h : Known keys events m) (hk : keys.get? k = some key) (hv : events.get? v = some id) :
    Known keys events (m.insert k v) := by
  intro k' v' hm
  by_cases heq : k' = k
  · subst heq
    rw [Finmap.lookup_insert, Option.some.injEq] at hm
    exact ⟨⟨key, hk⟩, id, hm ▸ hv⟩
  · rw [Finmap.lookup_insert_of_ne m heq] at hm
    exact h k' v' hm

theorem known_shortLeaves {keys : Enumeration NamedKey} {events : Enumeration EventId} {current : ShortState}
    (hkeys : ∀ e ∈ current.entries, ∃ key, keys.get? e.1 = some key)
    (hids : ∀ e ∈ current.entries, e.2 ∈ events.items) :
    Known keys events (Service.shortLeaves events current).toFinmap := by
  intro k v h
  rw [Finmap.lookup_toFinmap, Service.shortLeaves, AList.lookup_mapValues] at h
  obtain ⟨id, hid, rfl⟩ := Option.map_eq_some_iff.mp h
  have hmem := AList.mem_entries_iff.mpr hid
  exact ⟨hkeys _ hmem, id, Enumeration.get?_short (hids _ hmem)⟩

end

section
variable {SKey Hash Handle G : Type} {R : Rezzy SKey Hash Handle G} {s : Service R} {f : Faults} {room : RoomId}
  {key : NamedKey} {id : EventId} {base : Option Handle} {k v : Nat}

theorem Service.Numbered.names {entries : List (Σ _ : Nat, Nat)} (h : s.Numbered entries) {e : Σ _ : Nat, Nat}
    (he : e ∈ entries) : (∃ key, s.keys.get? e.1 = some key) ∧ ∃ id, s.events.get? e.2 = some id := by
  obtain ⟨hk, hv⟩ := h e he
  exact ⟨⟨_, List.getElem?_eq_getElem hk⟩, _, List.getElem?_eq_getElem hv⟩

/-! ## The leaves of a base -/

/-- The leaves that a rebuild begins with. -/
def baseLeaves (s : Service R) (room : RoomId) (base : Option Handle) : Finmap fun _ : Nat => Nat :=
  match base.bind fun root => s.nodes room (R.handleHash root) with
  | some node => R.leaves node
  | none => ∅

theorem mem_rebuildKeys (h : (baseLeaves s room base).lookup k = some v) :
    k ∈ s.rebuildKeys room key base := by
  unfold baseLeaves at h
  unfold Service.rebuildKeys
  cases hnode : base.bind fun root => s.nodes room (R.handleHash root) with
  | none =>
    rw [hnode] at h
    cases h
  | some node =>
    rw [hnode] at h
    have hmem : k ∈ R.entries node := AList.lookup_isSome.mp (by
      rw [← Finmap.lookup_toFinmap]
      exact Option.isSome_iff_exists.mpr ⟨v, h⟩)
    exact List.mem_cons_of_mem _ hmem

theorem lookup_loadBase {skip : Nat} {map : ShortState}
    (h : s.loadBase f room base skip = .ok map) (hk : k ≠ skip) :
    map.lookup k = ((baseLeaves s room base).lookup k).bind s.events.get? := by
  unfold Service.loadBase at h
  unfold baseLeaves
  cases base with
  | none =>
    cases h
    rfl
  | some root =>
    unfold Service.loadStateMapFromRootHandle at h
    cases hnode : s.getNode f.nodes room (R.handleHash root) with
    | error e => simp [hnode] at h
    | ok node =>
      simp only [hnode] at h
      have hretain : (R.entries node).entries.filter (fun e => e.1 ≠ skip) =
          ((R.entries node).retain fun k _ => k ≠ skip).entries := rfl
      rw [hretain] at h
      have hlookup : ((R.entries node).retain fun k _ => k ≠ skip).lookup k = (R.leaves node).lookup k := by
        rw [AList.lookup_retain, Rezzy.leaves, Finmap.lookup_toFinmap]
        cases (R.entries node).lookup k <;> simp [Option.filter, hk]
      rw [Service.lookup_loadEventIds h k, Option.bind_some, Service.getNode_ok hnode]
      exact congrArg (Option.bind · s.events.get?) hlookup

/-! ## The rebuilt state -/

theorem mem_current {skip : Nat} {map : ShortState}
    (h : s.loadBase f room base skip = .ok map) {e : Σ _ : Nat, EventId} (he : e ∈ (map.insert skip id).entries) :
    (e.1 = skip ∧ e.2 = id) ∨ ∃ v, (baseLeaves s room base).lookup e.1 = some v ∧ s.events.get? v = some e.2 := by
  have hlookup := AList.mem_entries_iff.mp he
  rw [AList.lookup_insert_ite] at hlookup
  by_cases hk : e.1 = skip
  · rw [if_pos hk, Option.some.injEq] at hlookup
    exact .inl ⟨hk, hlookup.symm⟩
  · rw [if_neg hk, lookup_loadBase h hk] at hlookup
    exact .inr (Option.bind_eq_some_iff.mp hlookup)

theorem shortLeaves_current {skip : Nat} {map : ShortState}
    (hknown : Known s.keys s.events (baseLeaves s room base)) (h : s.loadBase f room base skip = .ok map) :
    (Service.shortLeaves (s.events.number id) (map.insert skip id)).toFinmap =
      (baseLeaves s room base).insert skip ((s.events.number id).short id) := by
  apply Finmap.ext_lookup
  intro k
  rw [Finmap.lookup_toFinmap, Service.shortLeaves, AList.lookup_mapValues, AList.lookup_insert_ite]
  by_cases hk : k = skip
  · rw [if_pos hk, hk, Finmap.lookup_insert]
    rfl
  · rw [if_neg hk, Finmap.lookup_insert_of_ne _ hk, lookup_loadBase h hk]
    cases hb : (baseLeaves s room base).lookup k with
    | none => rfl
    | some v =>
      obtain ⟨-, id', hid'⟩ := hknown k v hb
      rw [Option.bind_some, hid', Option.map_some,
        Enumeration.short_eq (Enumeration.get?_of_le (Enumeration.le_number s.events id) hid')]

theorem numberAll_current {skip : Nat} {map : ShortState}
    (h : s.loadBase f room base skip = .ok map) :
    s.events.numberAll (eventIds (map.insert skip id)) = s.events.number id := by
  apply Enumeration.numberAll_eq_number
  · intro id' hid'
    obtain ⟨e, he, rfl⟩ := List.mem_map.mp hid'
    rcases mem_current h he with ⟨-, hid⟩ | ⟨v, -, hv⟩
    · exact .inr hid
    · exact .inl (Enumeration.mem_of_get? hv)
  · have hself : (⟨skip, id⟩ : Σ _ : Nat, EventId) ∈ (map.insert skip id).entries :=
      AList.mem_entries_iff.mpr (AList.lookup_insert map)
    exact List.mem_map.mpr ⟨_, hself, rfl⟩

/-! ## The resolved state -/

theorem lookup_namedState {l : List (Σ _ : Nat, EventId)} (hfound : ∀ e ∈ l, f.stateKey e.1 = false)
    (hnamed : ∀ e ∈ l, ∃ key, s.keys.get? e.1 = some key) (hk : s.keys.get? k = some key) :
    (s.namedState f l).lookup key = l.dlookup k := by
  induction l with
  | nil => rfl
  | cons e l ih =>
    obtain ⟨key', hkey'⟩ := hnamed e List.mem_cons_self
    have hrest := ih (fun e' he' => hfound e' (List.mem_cons_of_mem e he'))
      fun e' he' => hnamed e' (List.mem_cons_of_mem e he')
    unfold Service.namedState
    rw [Service.getStatekeyFromShort_eq (hfound e List.mem_cons_self) hkey']
    simp only
    rw [AList.lookup_insert_ite]
    by_cases h : key = key'
    · subst h
      have hsame : k = e.1 := Enumeration.get?_inj hk hkey'
      subst hsame
      rw [if_pos rfl, List.dlookup_cons_eq]
    · have hne : k ≠ e.1 := by
        rintro rfl
        rw [hk, Option.some.injEq] at hkey'
        exact h hkey'
      rw [if_neg h, List.dlookup_cons_ne l e hne, hrest]

theorem named_of_namedState {l : List (Σ _ : Nat, EventId)} (h : (s.namedState f l).lookup key = some id) :
    ∃ k, s.keys.get? k = some key := by
  induction l with
  | nil => cases h
  | cons e l ih =>
    unfold Service.namedState at h
    cases hkey : s.getStatekeyFromShort f e.1 with
    | error e' =>
      rw [hkey] at h
      exact ih h
    | ok key' =>
      rw [hkey] at h
      simp only at h
      rw [AList.lookup_insert_ite] at h
      by_cases heq : key = key'
      · exact ⟨e.1, heq ▸ Service.getStatekeyFromShort_ok hkey⟩
      · rw [if_neg heq] at h
        exact ih h

section
variable {keys : Enumeration NamedKey} {events : Enumeration EventId}

theorem dlookup_namedLeaves {state : NamedState} (hkeys : ∀ e ∈ state.entries, e.1 ∈ keys.items)
    (hk : keys.get? k = some key) :
    (Service.namedLeaves keys events state).dlookup k = (state.lookup key).map events.short := by
  have hlist : ∀ l : List (Σ _ : NamedKey, EventId), (∀ e ∈ l, e.1 ∈ keys.items) →
      (l.map fun e => (⟨keys.short e.1, events.short e.2⟩ : Σ _ : Nat, Nat)).dlookup k =
        (l.dlookup key).map events.short := by
    intro l hl
    induction l with
    | nil => rfl
    | cons e l ih =>
      have he := Enumeration.get?_short (hl e List.mem_cons_self)
      have hrest := ih fun e' he' => hl e' (List.mem_cons_of_mem e he')
      rw [List.map_cons]
      by_cases h : key = e.1
      · subst h
        have hsame := Enumeration.get?_inj hk he
        subst hsame
        rw [List.dlookup_cons_eq, List.dlookup_cons_eq, Option.map_some]
      · have hne : k ≠ keys.short e.1 := by
          rintro rfl
          rw [he, Option.some.injEq] at hk
          exact h hk.symm
        rw [List.dlookup_cons_ne _ (⟨keys.short e.1, events.short e.2⟩ : Σ _ : Nat, Nat) hne,
          List.dlookup_cons_ne l e h, hrest]
  exact hlist state.entries hkeys

theorem dlookup_namedLeaves_none {state : NamedState} (hkeys : ∀ e ∈ state.entries, e.1 ∈ keys.items)
    (hk : keys.get? k = none) : (Service.namedLeaves keys events state).dlookup k = none := by
  apply List.dlookup_eq_none.mpr
  intro hmem
  obtain ⟨e', he', hkey⟩ := List.mem_map.mp hmem
  obtain ⟨e, he, rfl⟩ := List.mem_map.mp he'
  have hnum := Enumeration.get?_short (hkeys e he)
  rw [show keys.short e.1 = k from hkey, hk] at hnum
  cases hnum

theorem known_namedLeaves {state : NamedState} (hkeys : ∀ e ∈ state.entries, e.1 ∈ keys.items)
    (hids : ∀ e ∈ state.entries, e.2 ∈ events.items) :
    Known keys events (Service.namedLeaves keys events state).toAList.toFinmap := by
  intro k v h
  rw [Finmap.lookup_toFinmap, AList.lookup_to_alist] at h
  cases hk : keys.get? k with
  | none =>
    rw [dlookup_namedLeaves_none hkeys hk] at h
    cases h
  | some key =>
    rw [dlookup_namedLeaves hkeys hk] at h
    obtain ⟨id, hid, rfl⟩ := Option.map_eq_some_iff.mp h
    exact ⟨⟨key, rfl⟩, id, Enumeration.get?_short (hids _ (AList.mem_entries_iff.mpr hid))⟩

theorem entries_namedLeaves {state : NamedState} (hkeys : ∀ e ∈ state.entries, e.1 ∈ keys.items) :
    (Service.namedLeaves keys events state).toAList.entries.Perm (Service.namedLeaves keys events state) := by
  have hnodup : (Service.namedLeaves keys events state).NodupKeys := by
    have hnumbers : (Service.namedLeaves keys events state).keys = state.keys.map keys.short := by
      unfold List.keys Service.namedLeaves AList.keys List.keys
      rw [List.map_map, List.map_map]
      rfl
    unfold List.NodupKeys
    rw [hnumbers]
    apply List.Nodup.map_on _ state.nodupKeys
    intro a ha b hb heq
    obtain ⟨e, he, rfl⟩ := List.mem_map.mp ha
    obtain ⟨e', he', rfl⟩ := List.mem_map.mp hb
    have hnum := Enumeration.get?_short (hkeys e he)
    rw [heq, Enumeration.get?_short (hkeys e' he'), Option.some.injEq] at hnum
    exact hnum.symm
  apply List.lookup_ext (AList.nodupKeys _) hnodup
  intro k v
  rw [AList.entries_toAList, List.dlookup_dedupKeys]

end

theorem lookup_previous {m : Finmap fun _ : Nat => Nat} {ids : ShortState} (hknown : Known s.keys s.events m)
    (hids : ∀ k, ids.lookup k = (m.lookup k).bind s.events.get?)
    (hfound : ∀ k v, m.lookup k = some v → f.stateKey k = false) (hk : s.keys.get? k = some key) :
    (s.namedState f ids.entries).lookup key = (m.lookup k).bind s.events.get? := by
  have hleaf : ∀ e ∈ ids.entries, ∃ v, m.lookup e.1 = some v := by
    intro e he
    have hlookup := AList.mem_entries_iff.mp he
    rw [hids] at hlookup
    obtain ⟨v, hv, -⟩ := Option.bind_eq_some_iff.mp hlookup
    exact ⟨v, hv⟩
  rw [← hids]
  apply lookup_namedState
  · intro e he
    obtain ⟨v, hv⟩ := hleaf e he
    exact hfound e.1 v hv
  · intro e he
    obtain ⟨v, hv⟩ := hleaf e he
    exact (hknown e.1 v hv).1
  · exact hk

variable {s' : Service R} {m : Finmap fun _ : Nat => Nat} {ids : ShortState} {state : NamedState}

theorem mem_resolved {previous : NamedState} {v : Option Nat} (hstate : ∀ e ∈ state.entries, e.1 ∈ s'.keys.items)
    (hprevious : ∀ e ∈ previous.entries, e.1 ∈ s'.keys.items)
    (h : (k, v) ∈ s'.changedEntries previous state ++ s'.droppedEntries previous state) :
    ∃ key, s'.keys.get? k = some key ∧ v = (state.lookup key).map s'.events.short := by
  rcases List.mem_append.mp h with h | h
  · obtain ⟨e, he, heq⟩ := List.mem_map.mp h
    obtain ⟨rfl, rfl⟩ := Prod.mk.inj heq
    have hmem := (List.mem_filter.mp he).1
    exact ⟨e.1, Enumeration.get?_short (hstate e hmem), by rw [AList.mem_entries_iff.mp hmem]; rfl⟩
  · obtain ⟨e, he, heq⟩ := List.mem_map.mp h
    obtain ⟨rfl, rfl⟩ := Prod.mk.inj heq
    obtain ⟨hmem, hnone⟩ := List.mem_filter.mp he
    exact ⟨e.1, Enumeration.get?_short (hprevious e hmem), by rw [of_decide_eq_true hnone]; rfl⟩

/-- Where there is no change, the leaf is what the resolved state has. -/
theorem lookup_unchanged (hknown : Known s.keys s.events m)
    (hids : ∀ k, ids.lookup k = (m.lookup k).bind s.events.get?)
    (hfound : ∀ k v, m.lookup k = some v → f.stateKey k = false) (hkeys : s.keys ≤ s'.keys)
    (hevents : s.events ≤ s'.events) (hk : s'.keys.get? k = some key)
    (hnot : ∀ v, (k, v) ∉ s'.changedEntries (s.namedState f ids.entries) state ++
      s'.droppedEntries (s.namedState f ids.entries) state) :
    m.lookup k = (state.lookup key).map s'.events.short := by
  have hshort := Enumeration.short_eq hk
  have hprevious : ∀ {id}, (s.namedState f ids.entries).lookup key = some id →
      (m.lookup k).bind s.events.get? = some id := by
    intro id hid
    obtain ⟨k', hk'⟩ := named_of_namedState hid
    have hsame := Enumeration.get?_inj hk (Enumeration.get?_of_le hkeys hk')
    subst hsame
    rw [← lookup_previous hknown hids hfound hk']
    exact hid
  cases hnew : state.lookup key with
  | some id =>
    have hid : (s.namedState f ids.entries).lookup key = some id := by
      by_contra hne
      apply hnot (some (s'.events.short id))
      refine List.mem_append.mpr (.inl (List.mem_map.mpr ⟨⟨key, id⟩, List.mem_filter.mpr ⟨?_, ?_⟩, ?_⟩))
      · exact AList.mem_entries_iff.mpr hnew
      · exact decide_eq_true hne
      · rw [hshort]
    obtain ⟨v, hv, hget⟩ := Option.bind_eq_some_iff.mp (hprevious hid)
    rw [hv, Option.map_some, Enumeration.short_eq (Enumeration.get?_of_le hevents hget)]
  | none =>
    cases hv : m.lookup k with
    | none => rfl
    | some v =>
      exfalso
      obtain ⟨⟨key', hkey'⟩, id, hid⟩ := hknown k v hv
      have hsame : key' = key := by
        have hle := Enumeration.get?_of_le hkeys hkey'
        rw [hk, Option.some.injEq] at hle
        exact hle.symm
      subst hsame
      have hlookup := lookup_previous hknown hids hfound hkey'
      rw [hv, Option.bind_some, hid] at hlookup
      apply hnot none
      refine List.mem_append.mpr (.inr (List.mem_map.mpr ⟨⟨key', id⟩, List.mem_filter.mpr ⟨?_, ?_⟩, ?_⟩))
      · exact AList.mem_entries_iff.mpr hlookup
      · exact decide_eq_true hnew
      · rw [hshort]

theorem mutateAll_resolved (hknown : Known s.keys s.events m)
    (hids : ∀ k, ids.lookup k = (m.lookup k).bind s.events.get?)
    (hfound : ∀ k v, m.lookup k = some v → f.stateKey k = false) (hkeys : s.keys ≤ s'.keys)
    (hevents : s.events ≤ s'.events) (hstate : ∀ e ∈ state.entries, e.1 ∈ s'.keys.items) :
    m.mutateAll (s'.changedEntries (s.namedState f ids.entries) state ++
      s'.droppedEntries (s.namedState f ids.entries) state) =
      (Service.namedLeaves s'.keys s'.events state).toAList.toFinmap := by
  have hprevious : ∀ e ∈ (s.namedState f ids.entries).entries, e.1 ∈ s'.keys.items := by
    intro e he
    obtain ⟨k, hk⟩ := named_of_namedState (AList.mem_entries_iff.mp he)
    exact Enumeration.mem_of_get? (Enumeration.get?_of_le hkeys hk)
  apply Finmap.ext_lookup
  intro k
  rw [Finmap.lookup_toFinmap, AList.lookup_to_alist]
  cases hk : s'.keys.get? k with
  | some key =>
    rw [dlookup_namedLeaves hstate hk]
    apply Finmap.lookup_mutateAll
    · intro v hv
      obtain ⟨key', hkey', rfl⟩ := mem_resolved hstate hprevious hv
      rw [hk, Option.some.injEq] at hkey'
      rw [hkey']
    · exact lookup_unchanged hknown hids hfound hkeys hevents hk
  | none =>
    rw [dlookup_namedLeaves_none hstate hk]
    apply Finmap.lookup_mutateAll
    · intro v hv
      obtain ⟨key', hkey', -⟩ := mem_resolved hstate hprevious hv
      rw [hk] at hkey'
      cases hkey'
    · intro _
      cases hv : m.lookup k with
      | none => rfl
      | some v =>
        obtain ⟨⟨key', hkey'⟩, -⟩ := hknown k v hv
        rw [Enumeration.get?_of_le hkeys hkey'] at hk
        cases hk

end

end Congruent.RoomLattice
