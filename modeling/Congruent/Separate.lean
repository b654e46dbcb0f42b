import Congruent.ResolveSound

/-!
# Conflicted and unconflicted state

`separate` counts in how many sets each entry occurs. An entry of all sets is
unconflicted, every other entry is in conflict, whatever order the tables are
iterated in.
-/

namespace Congruent

/-! ## Counting -/

def countAt (occ : Occurrences) (k : TypeStateKey) (v : EventId) : Option Nat :=
  (occ.lookup k).bind fun counts => counts.lookup v

theorem countAt_countOccurrence (occ : Occurrences) (e : Sigma fun _ : TypeStateKey => EventId) (k : TypeStateKey)
    (v : EventId) :
    countAt (countOccurrence occ e) k v =
      if e = ⟨k, v⟩ then some ((countAt occ k v).getD 0 + 1) else countAt occ k v := by
  obtain ⟨k', v'⟩ := e
  unfold countAt countOccurrence
  by_cases hk : k = k'
  · subst hk
    by_cases hv : v = v'
    · subst hv
      cases hl : occ.lookup k <;> simp [-AList.insert_empty]
    · have hne : (⟨k, v'⟩ : Sigma fun _ : TypeStateKey => EventId) ≠ ⟨k, v⟩ := by
        intro h; cases h; exact hv rfl
      cases hl : occ.lookup k <;> simp [hne, AList.lookup_insert_ne hv, -AList.insert_empty]
  · have hne : (⟨k', v'⟩ : Sigma fun _ : TypeStateKey => EventId) ≠ ⟨k, v⟩ := by
      intro h; cases h; exact hk rfl
    simp [hne, AList.lookup_insert_ne hk]

theorem countAt_foldl (l : List (Sigma fun _ : TypeStateKey => EventId)) (k : TypeStateKey) (v : EventId) :
    ∀ occ, countAt (l.foldl countOccurrence occ) k v =
      if l.count ⟨k, v⟩ = 0 then countAt occ k v else some ((countAt occ k v).getD 0 + l.count ⟨k, v⟩) := by
  induction l with
  | nil => intro occ; simp
  | cons e l ih =>
    intro occ
    rw [List.foldl_cons, ih, countAt_countOccurrence, List.count_cons]
    by_cases he : e = ⟨k, v⟩
    · simp only [he, if_true, beq_self_eq_true, Option.getD_some]
      split
      · rename_i h; simp [h]
      · rename_i h; simp; omega
    · simp [he]

theorem count_entries (s : StateMap EventId) (k : TypeStateKey) (v : EventId) :
    s.entries.count ⟨k, v⟩ = if s.lookup k = some v then 1 else 0 := by
  have hnd : s.entries.Nodup := List.NodupKeys.nodup s.nodupKeys
  split
  · rename_i h
    exact List.count_eq_one_of_mem hnd (AList.mem_lookup_iff.mp h)
  · rename_i h
    exact List.count_eq_zero_of_not_mem fun hm => h (AList.mem_lookup_iff.mpr hm)

/-- The number of sets that hold an entry. -/
def holders (sets : List (StateMap EventId)) (k : TypeStateKey) (v : EventId) : Nat :=
  (sets.filter fun s => s.lookup k = some v).length

theorem count_sets (ch : Choices) (k : TypeStateKey) (v : EventId) : ∀ (sets : List (StateMap EventId)),
    (sets.flatMap fun s => ch.perm 0 s.entries).count ⟨k, v⟩ = holders sets k v
  | [] => rfl
  | s :: sets => by
    rw [List.flatMap_cons, List.count_append, count_sets ch k v sets, (ch.perm_perm 0 s.entries).count_eq,
      count_entries]
    unfold holders
    rw [List.filter_cons]
    by_cases h : s.lookup k = some v
    · simp [h]; omega
    · simp [h]

theorem holders_pos {sets : List (StateMap EventId)} {k : TypeStateKey} {v : EventId} :
    holders sets k v ≠ 0 ↔ ∃ s ∈ sets, s.lookup k = some v := by
  simp [holders, List.length_eq_zero_iff, List.filter_eq_nil_iff]

theorem holders_all {sets : List (StateMap EventId)} {k : TypeStateKey} {v : EventId} :
    holders sets k v = sets.length ↔ ∀ s ∈ sets, s.lookup k = some v := by
  simp [holders, List.length_filter_eq_length_iff]

/-! ## Filing -/

/-- What filing counted entries makes of one key. -/
structure FiledKey (N : Nat) (k : TypeStateKey) (l : List (TypeStateKey × Sigma fun _ : EventId => Nat))
    (acc r : StateMap EventId × StateMap (List EventId)) : Prop where
  agreed : ∀ v, r.1.lookup k = some v → acc.1.lookup k = some v ∨ (k, ⟨v, N⟩) ∈ l
  agrees : ∀ v, (k, ⟨v, N⟩) ∈ l → ∃ v', r.1.lookup k = some v'
  values : ∀ v, v ∈ (r.2.lookup k).getD [] ↔ v ∈ (acc.2.lookup k).getD [] ∨ ∃ n, n ≠ N ∧ (k, ⟨v, n⟩) ∈ l
  differs : (r.2.lookup k).isSome = true ↔ (acc.2.lookup k).isSome = true ∨ ∃ v n, n ≠ N ∧ (k, ⟨v, n⟩) ∈ l
  keeps : (acc.1.lookup k).isSome = true → (r.1.lookup k).isSome = true

section
variable {N : Nat} {k k' : TypeStateKey} {l : List (TypeStateKey × Sigma fun _ : EventId => Nat)}
  {acc r : StateMap EventId × StateMap (List EventId)}

variable (N acc) in
theorem fileOccurrence_other (hk : k ≠ k') (entry : Sigma fun _ : EventId => Nat) :
    (fileOccurrence N k' acc entry).1.lookup k = acc.1.lookup k ∧
      (fileOccurrence N k' acc entry).2.lookup k = acc.2.lookup k := by
  unfold fileOccurrence
  split
  · exact ⟨AList.lookup_insert_ne hk, rfl⟩
  · exact ⟨rfl, AList.lookup_insert_ne hk⟩

theorem FiledKey.other {entry : Sigma fun _ : EventId => Nat} (hk : k ≠ k')
    (h : FiledKey N k l (fileOccurrence N k' acc entry) r) : FiledKey N k ((k', entry) :: l) acc r := by
  obtain ⟨h₁, h₂⟩ := fileOccurrence_other N acc hk entry
  have hmem : ∀ x : Sigma fun _ : EventId => Nat, (k, x) ∈ (k', entry) :: l ↔ (k, x) ∈ l := fun x => by simp [hk]
  constructor
  · intro v hv
    rw [hmem, ← h₁]
    exact h.agreed v hv
  · exact fun v hv => h.agrees v ((hmem _).mp hv)
  · intro v
    rw [h.values v, h₂]
    simp only [hmem]
  · rw [h.differs, h₂]
    simp only [hmem]
  · rw [← h₁]
    exact h.keeps

theorem FiledKey.agree {v : EventId} (h : FiledKey N k l (acc.1.insert k v, acc.2) r) :
    FiledKey N k ((k, ⟨v, N⟩) :: l) acc r := by
  have hsome : (r.1.lookup k).isSome = true := h.keeps (by simp)
  have hmem : ∀ w n, n ≠ N → ((k, ⟨w, n⟩) ∈ (k, (⟨v, N⟩ : Sigma fun _ : EventId => Nat)) :: l ↔ (k, ⟨w, n⟩) ∈ l) :=
    fun w n hne => by simp [hne]
  constructor
  · intro w hw
    rcases h.agreed w hw with hi | hl
    · rw [AList.lookup_insert] at hi
      obtain rfl := Option.some.inj hi
      exact Or.inr List.mem_cons_self
    · exact Or.inr (List.mem_cons_of_mem _ hl)
  · exact fun _ _ => Option.isSome_iff_exists.mp hsome
  · intro w
    rw [h.values w]
    exact or_congr_right (exists_congr fun n => and_congr_right fun hne => (hmem w n hne).symm)
  · rw [h.differs]
    exact or_congr_right (exists_congr fun w => exists_congr fun n => and_congr_right fun hne =>
      (hmem w n hne).symm)
  · exact fun _ => hsome

theorem FiledKey.differ {v : EventId} {n : Nat} (hn : n ≠ N)
    (h : FiledKey N k l (acc.1, acc.2.insert k ((acc.2.lookup k).getD [] ++ [v])) r) :
    FiledKey N k ((k, ⟨v, n⟩) :: l) acc r := by
  have hmem : ∀ w, ((k, ⟨w, N⟩) ∈ (k, (⟨v, n⟩ : Sigma fun _ : EventId => Nat)) :: l ↔ (k, ⟨w, N⟩) ∈ l) :=
    fun w => by simp [Ne.symm hn]
  constructor
  · exact fun w hw => (h.agreed w hw).imp_right (hmem w).mpr
  · exact fun w hw => h.agrees w ((hmem w).mp hw)
  · intro w
    rw [h.values w, AList.lookup_insert, Option.getD_some, List.mem_append, List.mem_singleton, or_assoc]
    refine or_congr_right ⟨fun hw => ?_, fun ⟨m, hne, hw⟩ => ?_⟩
    · rcases hw with rfl | ⟨m, hne, hw⟩
      · exact ⟨n, hn, List.mem_cons_self⟩
      · exact ⟨m, hne, List.mem_cons_of_mem _ hw⟩
    · rcases List.mem_cons.mp hw with hw | hw
      · cases hw
        exact Or.inl rfl
      · exact Or.inr ⟨m, hne, hw⟩
  · rw [h.differs, AList.lookup_insert, Option.isSome_some]
    exact iff_of_true (Or.inl rfl) (Or.inr ⟨v, n, hn, List.mem_cons_self⟩)
  · exact h.keeps

end

theorem filed_spec (N : Nat) (k : TypeStateKey) : ∀ (l : List (TypeStateKey × Sigma fun _ : EventId => Nat))
    (acc : StateMap EventId × StateMap (List EventId)),
    FiledKey N k l acc (l.foldl (fun acc e => fileOccurrence N e.1 acc e.2) acc)
  | [], acc => by constructor <;> simp
  | ⟨k', v, n⟩ :: l, acc => by
    have ih := filed_spec N k l (fileOccurrence N k' acc ⟨v, n⟩)
    by_cases hk : k = k'
    · subst hk
      by_cases hn : n = N
      · subst hn
        rw [fileOccurrence, if_pos rfl] at ih
        rw [List.foldl_cons, fileOccurrence, if_pos rfl]
        exact ih.agree
      · rw [fileOccurrence, if_neg hn] at ih
        rw [List.foldl_cons, fileOccurrence, if_neg hn]
        exact ih.differ hn
    · exact ih.other hk

/-! ## What is unconflicted, and what is in conflict -/

def filedEntries (ch : Choices) (occ : Occurrences) : List (TypeStateKey × Sigma fun _ : EventId => Nat) :=
  (ch.perm 1 occ.entries).flatMap fun e => (ch.perm 2 e.2.entries).map fun i => (e.1, i)

theorem separate_eq (ch : Choices) (sets : List (StateMap EventId)) :
    separate ch sets =
      (filedEntries ch ((sets.flatMap fun s => ch.perm 0 s.entries).foldl countOccurrence ∅)).foldl
        (fun acc e => fileOccurrence sets.length e.1 acc e.2) (∅, ∅) := by
  simp only [separate, filedEntries, List.foldl_flatMap, List.foldl_map]

theorem mem_filedEntries (ch : Choices) (sets : List (StateMap EventId)) (k : TypeStateKey)
    (v : EventId) (n : Nat) :
    (k, ⟨v, n⟩) ∈ filedEntries ch ((sets.flatMap fun s => ch.perm 0 s.entries).foldl countOccurrence ∅) ↔
      holders sets k v ≠ 0 ∧ n = holders sets k v := by
  have hcount := countAt_foldl (sets.flatMap fun s => ch.perm 0 s.entries) k v ∅
  rw [count_sets] at hcount
  generalize (sets.flatMap fun s => ch.perm 0 s.entries).foldl countOccurrence ∅ = occ at hcount ⊢
  have hmem : (k, ⟨v, n⟩) ∈ filedEntries ch occ ↔ countAt occ k v = some n := by
    simp only [filedEntries, List.mem_flatMap, List.mem_map, mem_perm, Prod.mk.injEq, countAt,
      Option.bind_eq_some_iff]
    constructor
    · rintro ⟨e, he, i, hi, rfl, rfl⟩
      exact ⟨e.2, AList.mem_lookup_iff.mpr he, AList.mem_lookup_iff.mpr hi⟩
    · rintro ⟨counts, hk, hv⟩
      exact ⟨⟨k, counts⟩, AList.mem_lookup_iff.mp hk, ⟨v, n⟩, AList.mem_lookup_iff.mp hv, rfl, rfl⟩
  rw [hmem, hcount]
  by_cases h0 : holders sets k v = 0
  · simp [h0, countAt]
  · simp [h0, countAt, eq_comm]

section
variable (ch : Choices) (sets : List (StateMap EventId)) (k : TypeStateKey)

theorem separate_filed : FiledKey sets.length k
    (filedEntries ch ((sets.flatMap fun s => ch.perm 0 s.entries).foldl countOccurrence ∅)) (∅, ∅)
    (separate ch sets) := by
  rw [separate_eq]
  exact filed_spec ..

theorem separate_unconflicted (v : EventId) :
    (separate ch sets).1.lookup k = some v ↔ sets ≠ [] ∧ ∀ s ∈ sets, s.lookup k = some v := by
  have hmem := mem_filedEntries ch sets k
  have hfiled := separate_filed ch sets k
  have huniq : ∀ v v', (k, ⟨v, sets.length⟩) ∈ filedEntries ch
        ((sets.flatMap fun s => ch.perm 0 s.entries).foldl countOccurrence ∅) →
      (∀ s ∈ sets, s.lookup k = some v') → v = v' := by
    intro v v' hv hv'
    obtain ⟨s, hs, hsv⟩ := holders_pos.mp ((hmem v _).mp hv).1
    exact Option.some.inj (hsv.symm.trans (hv' s hs))
  constructor
  · intro h
    rcases hfiled.agreed v h with h | h
    · rw [AList.lookup_empty] at h; cases h
    · obtain ⟨hpos, hall⟩ := (hmem v _).mp h
      obtain ⟨s, hs, -⟩ := holders_pos.mp hpos
      exact ⟨List.ne_nil_of_mem hs, holders_all.mp hall.symm⟩
  · rintro ⟨hne, hall⟩
    obtain ⟨s, hs⟩ := List.exists_mem_of_ne_nil sets hne
    have hin := (hmem v sets.length).mpr ⟨holders_pos.mpr ⟨s, hs, hall s hs⟩, (holders_all.mpr hall).symm⟩
    obtain ⟨v', hv'⟩ := hfiled.agrees v hin
    rcases hfiled.agreed v' hv' with h | h
    · rw [AList.lookup_empty] at h; cases h
    · rw [hv', huniq v' v h hall]

def InConflict (sets : List (StateMap EventId)) (k : TypeStateKey) (v : EventId) : Prop :=
  (∃ s ∈ sets, s.lookup k = some v) ∧ ¬ ∀ s ∈ sets, s.lookup k = some v

theorem inConflict_iff {sets : List (StateMap EventId)} {k : TypeStateKey} {v : EventId} :
    InConflict sets k v ↔ holders sets k v ≠ 0 ∧ holders sets k v ≠ sets.length := by
  rw [InConflict, holders_pos, ne_eq (holders sets k v), holders_all]

theorem separate_conflicted (v : EventId) :
    v ∈ ((separate ch sets).2.lookup k).getD [] ↔ InConflict sets k v := by
  rw [(separate_filed ch sets k).values v, inConflict_iff]
  simp only [AList.lookup_empty, Option.getD_none, List.not_mem_nil, false_or, mem_filedEntries ch sets k]
  constructor
  · rintro ⟨n, hne, hpos, rfl⟩
    exact ⟨hpos, hne⟩
  · rintro ⟨hpos, hne⟩
    exact ⟨_, hne, hpos, rfl⟩

theorem separate_conflicting_key :
    ((separate ch sets).2.lookup k).isSome = true ↔ ∃ v, InConflict sets k v := by
  rw [(separate_filed ch sets k).differs]
  simp only [AList.lookup_empty, Option.isSome_none, Bool.false_eq_true, false_or, mem_filedEntries ch sets k,
    inConflict_iff]
  constructor
  · rintro ⟨v, n, hne, hpos, rfl⟩
    exact ⟨v, hpos, hne⟩
  · rintro ⟨v, hpos, hne⟩
    exact ⟨v, _, hne, hpos, rfl⟩

theorem mem_conflictedIds (v : EventId) :
    v ∈ conflictedIds (separate ch sets).2 ↔ ∃ k, InConflict sets k v := by
  unfold conflictedIds
  rw [List.mem_flatMap]
  constructor
  · rintro ⟨e, he, hv⟩
    refine ⟨e.1, (separate_conflicted ch sets e.1 v).mp ?_⟩
    rw [show (separate ch sets).2.lookup e.1 = some e.2 from AList.mem_lookup_iff.mpr he]
    exact hv
  · rintro ⟨k, hv⟩
    have hv := (separate_conflicted ch sets k v).mpr hv
    cases hl : (separate ch sets).2.lookup k with
    | none => rw [hl] at hv; cases hv
    | some ids =>
      rw [hl] at hv
      exact ⟨⟨k, ids⟩, AList.mem_lookup_iff.mp hl, hv⟩

theorem separate_no_conflict : (separate ch sets).2.entries = [] ↔ ∀ k v, ¬ InConflict sets k v := by
  constructor
  · intro h k v hv
    have := (mem_conflictedIds ch sets v).mpr ⟨k, hv⟩
    rw [conflictedIds, h] at this
    cases this
  · intro h
    refine List.eq_nil_iff_forall_not_mem.mpr fun e he => ?_
    have : ((separate ch sets).2.lookup e.1).isSome = true := by
      rw [show (separate ch sets).2.lookup e.1 = some e.2 from AList.mem_lookup_iff.mpr he]; rfl
    obtain ⟨v, hv⟩ := (separate_conflicting_key ch sets e.1).mp this
    exact h _ v hv

end

/-! ## The partition of the keys -/

theorem filed_list (N : Nat) (k : TypeStateKey) : ∀ (l : List (TypeStateKey × Sigma fun _ : EventId => Nat))
    (acc : StateMap EventId × StateMap (List EventId)),
    ((l.foldl (fun acc e => fileOccurrence N e.1 acc e.2) acc).2.lookup k).getD [] =
      (acc.2.lookup k).getD [] ++ l.filterMap fun e => if e.1 = k ∧ e.2.2 ≠ N then some e.2.1 else none
  | [], acc => by simp
  | ⟨k', v', n'⟩ :: l, acc => by
    rw [List.foldl_cons, filed_list N k l]
    by_cases hn : n' = N
    · simp [fileOccurrence, hn]
    · by_cases hk : k' = k
      · subst hk
        simp [fileOccurrence, hn]
      · simp [fileOccurrence, hn, hk, AList.lookup_insert_ne (Ne.symm hk)]

theorem filedEntries_nodup (ch : Choices) (occ : Occurrences) : (filedEntries ch occ).Nodup := by
  unfold filedEntries
  refine List.nodup_flatMap.mpr ⟨fun e _ => ?_, ?_⟩
  · exact List.Nodup.map (fun _ _ h => congrArg Prod.snd h)
      ((ch.perm_perm 2 e.2.entries).nodup_iff.mpr (List.NodupKeys.nodup e.2.nodupKeys))
  · have hkeys : (ch.perm 1 occ.entries).Pairwise fun e e' => e.1 ≠ e'.1 :=
      ((ch.perm_perm 1 occ.entries).pairwise_iff fun h => Ne.symm h).mpr
        (List.nodupKeys_iff_pairwise.mp occ.nodupKeys)
    refine hkeys.imp fun {e e'} hne x hx hx' => hne ?_
    obtain ⟨_, _, rfl⟩ := List.mem_map.mp hx
    obtain ⟨_, _, h⟩ := List.mem_map.mp hx'
    exact congrArg Prod.fst h.symm

theorem separate_conflicted_nodup (ch : Choices) (sets : List (StateMap EventId)) (k : TypeStateKey) :
    (((separate ch sets).2.lookup k).getD []).Nodup := by
  have hmem := mem_filedEntries ch sets k
  have hnd := filedEntries_nodup ch ((sets.flatMap fun s => ch.perm 0 s.entries).foldl countOccurrence ∅)
  rw [separate_eq, filed_list, AList.lookup_empty, Option.getD_none, List.nil_append]
  generalize filedEntries ch _ = l at hmem hnd ⊢
  -- one id under one key has one count
  refine List.pairwise_filterMap.mpr (hnd.imp_of_mem fun {e e'} he he' hne v hv v' hv' => ?_)
  obtain ⟨k₁, v₁, n₁⟩ := e
  obtain ⟨k₂, v₂, n₂⟩ := e'
  simp only [Option.ite_none_right_eq_some, Option.some.injEq] at hv hv'
  obtain ⟨⟨rfl, -⟩, rfl⟩ := hv
  obtain ⟨⟨rfl, -⟩, rfl⟩ := hv'
  rintro rfl
  exact hne (by rw [((hmem _ _).mp he).2, ((hmem _ _).mp he').2])

/-- The two maps of `separate`. -/
structure PartitionsKeys (sets : List (StateMap EventId))
    (r : StateMap EventId × StateMap (List EventId)) : Prop where
  unconflicted : ∀ k v, r.1.lookup k = some v ↔ sets ≠ [] ∧ ∀ s ∈ sets, s.lookup k = some v
  conflicted : ∀ k, k ∈ r.2 ↔ (∃ s ∈ sets, k ∈ s) ∧ k ∉ r.1
  nodup : ∀ k l, r.2.lookup k = some l → l.Nodup
  values : ∀ k l, r.2.lookup k = some l → ∀ v, v ∈ l ↔ ∃ s ∈ sets, s.lookup k = some v

theorem inConflict_of_key {sets : List (StateMap EventId)} {k : TypeStateKey} {v id : EventId}
    (hv : InConflict sets k v) {s : StateMap EventId} (hs : s ∈ sets) (hid : s.lookup k = some id) :
    InConflict sets k id := by
  refine ⟨⟨s, hs, hid⟩, fun hall => hv.2 ?_⟩
  obtain ⟨s₀, hs₀, hv₀⟩ := hv.1
  obtain rfl : v = id := Option.some.inj (hv₀.symm.trans (hall s₀ hs₀))
  exact hall

theorem separate_partitions (ch : Choices) (sets : List (StateMap EventId)) :
    PartitionsKeys sets (separate ch sets) := by
  have hlist : ∀ k l, (separate ch sets).2.lookup k = some l → ((separate ch sets).2.lookup k).getD [] = l := by
    rintro k l h
    rw [h, Option.getD_some]
  refine ⟨separate_unconflicted ch sets, fun k => ?_, fun k l h => ?_, fun k l h v => ?_⟩
  · rw [← AList.lookup_isSome, separate_conflicting_key, ← AList.lookup_isSome, Option.isSome_iff_exists]
    simp only [separate_unconflicted, ← AList.lookup_isSome (s := _), Option.isSome_iff_exists]
    constructor
    · rintro ⟨v, ⟨s, hs, hv⟩, hall⟩
      refine ⟨⟨s, hs, v, hv⟩, ?_⟩
      rintro ⟨v', -, hv'⟩
      exact hall (Option.some.inj ((hv' s hs).symm.trans hv) ▸ hv')
    · rintro ⟨⟨s, hs, v, hv⟩, hnot⟩
      exact ⟨v, ⟨s, hs, hv⟩, fun hall => hnot ⟨v, List.ne_nil_of_mem hs, hall⟩⟩
  · exact hlist k l h ▸ separate_conflicted_nodup ch sets k
  · have hkey : ((separate ch sets).2.lookup k).isSome = true := by rw [h, Option.isSome_some]
    obtain ⟨v₀, hv₀⟩ := (separate_conflicting_key ch sets k).mp hkey
    rw [← hlist k l h, separate_conflicted]
    refine ⟨And.left, ?_⟩
    rintro ⟨s, hs, hv⟩
    exact inConflict_of_key hv₀ hs hv

/-- Of no sets, both maps are empty: a key that every set maps to a value is not
in the unconflicted one. -/
theorem separate_no_sets :
    ¬ ((separate inOrder []).1.lookup (.roomCreate, "") = some "$c" ↔
      ∀ s ∈ ([] : List (StateMap EventId)), s.lookup (.roomCreate, "") = some "$c") := by
  decide

end Congruent
