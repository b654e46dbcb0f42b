import Mathlib.Data.List.AList
import Mathlib.Data.List.Sort
import Mathlib.Data.List.Dedup

/-!
# Maps and lists cut down

Maps by what they answer for a key: keeping entries, changing values, merging.
And lists sorted by an order and cut after their first elements: what is kept
is what has few elements before it.
-/

theorem Option.ite_any_none {α : Type} (x : Option α) (q : α → Bool) :
    (if x.any q then none else x) = x.filter fun v => !q v := by
  cases x with
  | none => simp
  | some v => cases h : q v <;> simp [Option.filter, h]

namespace List

theorem findSome?_cons_or {α β : Type} (f : α → Option β) (a : α) (l : List α) :
    (a :: l).findSome? f = (f a).or (l.findSome? f) := by
  rw [findSome?_cons]
  cases f a <;> rfl

variable {K V : Type} [BEq K] [LawfulBEq K] {l : List (K × V)} {k : K} {v : V}

theorem mem_of_lookup (h : l.lookup k = some v) : (k, v) ∈ l := by
  obtain ⟨l₁, l₂, rfl, -⟩ := lookup_eq_some_iff.mp h
  exact mem_append_right _ mem_cons_self

theorem lookup_ne_none (h : (k, v) ∈ l) : l.lookup k ≠ none := by
  intro hnone
  simpa using lookup_eq_none_iff.mp hnone (k, v) h

end List

namespace AList

variable {K V W : Type} [DecidableEq K]

/-- The entries a predicate holds of. -/
def retain (p : K → V → Bool) (m : AList fun _ : K => V) : AList fun _ : K => V :=
  ⟨m.entries.filter fun e => p e.1 e.2, m.nodupKeys.sublist List.filter_sublist⟩

def mapValues (f : K → V → W) (m : AList fun _ : K => V) : AList fun _ : K => W :=
  ⟨m.entries.map fun e => ⟨e.1, f e.1 e.2⟩, List.NodupKeys.map₂ f m.entries m.nodupKeys⟩

theorem mem_entries_iff {m : AList fun _ : K => V} {k : K} {v : V} :
    (⟨k, v⟩ : Σ _ : K, V) ∈ m.entries ↔ m.lookup k = some v :=
  mem_lookup_iff.symm

@[simp]
theorem lookup_retain (p : K → V → Bool) (m : AList fun _ : K => V) (k : K) :
    (m.retain p).lookup k = (m.lookup k).filter (p k) := by
  ext v
  have h : (⟨k, v⟩ : Σ _ : K, V) ∈ (m.retain p).entries ↔ _ ∧ _ := List.mem_filter
  rw [mem_entries_iff, mem_entries_iff] at h
  simp [h, Option.filter_eq_some_iff]

@[simp]
theorem lookup_mapValues (f : K → V → W) (m : AList fun _ : K => V) (k : K) :
    (m.mapValues f).lookup k = (m.lookup k).map (f k) :=
  List.dlookup_map₂ k

@[simp]
theorem lookup_union (m n : AList fun _ : K => V) (k : K) :
    (m ∪ n).lookup k = (m.lookup k).or (n.lookup k) := by
  by_cases h : k ∈ m
  · obtain ⟨v, hv⟩ := Option.isSome_iff_exists.mp (lookup_isSome.mpr h)
    rw [lookup_union_left h, hv, Option.some_or]
  · rw [lookup_union_right h, lookup_eq_none.mpr h, Option.none_or]

theorem lookup_erase_eq (m : AList fun _ : K => V) (a k : K) :
    (m.erase a).lookup k = if k = a then none else m.lookup k := by
  by_cases h : k = a
  · rw [h, lookup_erase, if_pos rfl]
  · rw [lookup_erase_ne h, if_neg h]

theorem lookup_insert_ite (m : AList fun _ : K => V) (a : K) (v : V) (k : K) :
    (m.insert a v).lookup k = if k = a then some v else m.lookup k := by
  by_cases h : k = a
  · rw [h, lookup_insert, if_pos rfl]
  · rw [lookup_insert_ne h, if_neg h]

theorem lookup_foldl_insert_of_ne {A : Type} {l : List A} {key : A → K} {value : A → V} {k : K}
    {m : AList fun _ : K => V} (h : ∀ a ∈ l, key a ≠ k) :
    (l.foldl (fun m a => m.insert (key a) (value a)) m).lookup k = m.lookup k := by
  induction l generalizing m with
  | nil => rfl
  | cons a l ih =>
    rw [List.foldl_cons, ih fun b hb => h b (List.mem_cons_of_mem a hb),
      lookup_insert_ne (Ne.symm (h a List.mem_cons_self))]

theorem lookup_foldl_insert {A : Type} {l : List A} {key : A → K} {value : A → V} {a : A}
    {m : AList fun _ : K => V} (hnodup : (l.map key).Nodup) (ha : a ∈ l) :
    (l.foldl (fun m a => m.insert (key a) (value a)) m).lookup (key a) = some (value a) := by
  induction l generalizing m with
  | nil => cases ha
  | cons b l ih =>
    obtain ⟨hb, hnodup⟩ := List.nodup_cons.mp hnodup
    rw [List.foldl_cons]
    rcases List.mem_cons.mp ha with rfl | ha
    · rw [lookup_foldl_insert_of_ne fun c hc heq => hb (List.mem_map.mpr ⟨c, hc, heq⟩), lookup_insert]
    · exact ih hnodup ha

theorem row_of_lookup_foldl_insert {A : Type} {key : A → K} {value : A → V} {k : K} {v : V} (l : List A)
    {m : AList fun _ : K => V} (h : (l.foldl (fun m a => m.insert (key a) (value a)) m).lookup k = some v) :
    (∃ a ∈ l, key a = k ∧ value a = v) ∨ m.lookup k = some v := by
  induction l generalizing m with
  | nil => exact .inr h
  | cons a l ih =>
    rcases ih h with ⟨b, hb, hk⟩ | hm
    · exact .inl ⟨b, List.mem_cons_of_mem a hb, hk⟩
    · rw [lookup_insert_ite] at hm
      split at hm
      · rename_i hk
        exact .inl ⟨a, List.mem_cons_self, hk.symm, Option.some.inj hm⟩
      · exact .inr hm

theorem mem_foldl_insert {A : Type} {key : A → K} {value : A → V} {k : K} (l : List A) {m : AList fun _ : K => V} :
    k ∈ l.foldl (fun m a => m.insert (key a) (value a)) m ↔ k ∈ l.map key ∨ k ∈ m := by
  induction l generalizing m with
  | nil => simp
  | cons a l ih => rw [List.foldl_cons, ih, mem_insert, List.map_cons, List.mem_cons, or_left_comm, or_assoc]

theorem lookup_foldl_erase {A : Type} (l : List A) (key : A → K) (k : K) (m : AList fun _ : K => V) :
    (l.foldl (fun m a => m.erase (key a)) m).lookup k = if k ∈ l.map key then none else m.lookup k := by
  induction l generalizing m with
  | nil => simp
  | cons a l ih =>
    rw [List.foldl_cons, ih, lookup_erase_eq]
    by_cases hk : k = key a <;> by_cases hl : k ∈ l.map key <;> simp [hk, hl]

theorem any_entries_key (m : AList fun _ : K => V) (k : K) (q : K → V → Bool) :
    (m.entries.any fun e => decide (e.1 = k) && q e.1 e.2) = (m.lookup k).any (q k) := by
  rw [Bool.eq_iff_iff, List.any_eq_true, Option.any_eq_true]
  constructor
  · intro ⟨e, he, h⟩
    simp only [Bool.and_eq_true, decide_eq_true_eq] at h
    obtain ⟨rfl, h⟩ := h
    exact ⟨e.2, mem_entries_iff.mp he, h⟩
  · intro ⟨v, hv, h⟩
    exact ⟨⟨k, v⟩, mem_entries_iff.mpr hv, by simp [h]⟩

omit [DecidableEq K] in
theorem length_retain_le (p : K → V → Bool) (m : AList fun _ : K => V) :
    (m.retain p).entries.length ≤ m.entries.length :=
  List.length_filter_le _ _

/-! ## Counting -/

/-- How many entries a predicate holds of. -/
def count (p : K → V → Bool) (m : AList fun _ : K => V) : Nat := m.entries.countP fun e => p e.1 e.2

def adjust (k : K) (f : V → V) (m : AList fun _ : K => V) : AList fun _ : K => V :=
  m.mapValues fun k' v => if k' = k then f v else v

theorem lookup_adjust (k : K) (f : V → V) (m : AList fun _ : K => V) (k' : K) :
    (m.adjust k f).lookup k' = if k' = k then (m.lookup k).map f else m.lookup k' := by
  unfold adjust
  rw [lookup_mapValues]
  by_cases h : k' = k
  · subst h
    simp
  · simp [h]

theorem lookup_foldl_adjust_of_ne {A : Type} {l : List A} {key : A → K} {f : A → V → V} {k : K}
    {m : AList fun _ : K => V} (h : ∀ a ∈ l, key a ≠ k) :
    (l.foldl (fun m a => m.adjust (key a) (f a)) m).lookup k = m.lookup k := by
  induction l generalizing m with
  | nil => rfl
  | cons a l ih =>
    rw [List.foldl_cons, ih fun b hb => h b (List.mem_cons_of_mem a hb), lookup_adjust,
      if_neg (Ne.symm (h a List.mem_cons_self))]

theorem lookup_foldl_adjust {A : Type} {l : List A} {key : A → K} {f : A → V → V} {a : A}
    {m : AList fun _ : K => V} (hnodup : (l.map key).Nodup) (ha : a ∈ l) :
    (l.foldl (fun m a => m.adjust (key a) (f a)) m).lookup (key a) = (m.lookup (key a)).map (f a) := by
  induction l generalizing m with
  | nil => cases ha
  | cons b l ih =>
    obtain ⟨hb, hnodup⟩ := List.nodup_cons.mp hnodup
    rw [List.foldl_cons]
    rcases List.mem_cons.mp ha with rfl | ha
    · rw [lookup_foldl_adjust_of_ne fun c hc heq => hb (List.mem_map.mpr ⟨c, hc, heq⟩), lookup_adjust, if_pos rfl]
    · rw [ih hnodup ha, lookup_adjust, if_neg fun heq => hb (List.mem_map.mpr ⟨a, ha, heq⟩)]

theorem mem_keys_filter (p : K → V → Bool) (m : AList fun _ : K => V) (k : K) :
    k ∈ (m.entries.filter fun e => p e.1 e.2).map (·.1) ↔ (m.lookup k).any (p k) = true := by
  rw [List.mem_map, Option.any_eq_true]
  constructor
  · rintro ⟨⟨k, v⟩, he, rfl⟩
    exact ⟨v, mem_entries_iff.mp (List.mem_filter.mp he).1, (List.mem_filter.mp he).2⟩
  · intro ⟨v, hv, hp⟩
    exact ⟨⟨k, v⟩, List.mem_filter.mpr ⟨mem_entries_iff.mpr hv, hp⟩, rfl⟩

omit [DecidableEq K] in
theorem nodup_keys_filter (p : K → V → Bool) (m : AList fun _ : K => V) :
    ((m.entries.filter fun e => p e.1 e.2).map (·.1)).Nodup :=
  m.nodupKeys.sublist List.filter_sublist

theorem count_le {p : K → V → Bool} {q : K → W → Bool} {m : AList fun _ : K => V} {m' : AList fun _ : K => W}
    (ks : List K) (h : ∀ k, (m.lookup k).any (p k) = true → k ∈ ks ∨ (m'.lookup k).any (q k) = true) :
    m.count p ≤ ks.length + m'.count q := by
  have hsub : (m.entries.filter fun e => p e.1 e.2).map (·.1) ⊆
      ks ++ (m'.entries.filter fun e => q e.1 e.2).map (·.1) := by
    intro k hk
    rw [List.mem_append, mem_keys_filter]
    exact h k ((mem_keys_filter p m k).mp hk)
  have hlen := (List.subperm_of_subset (nodup_keys_filter p m) hsub).length_le
  unfold count
  rw [List.countP_eq_length_filter, List.countP_eq_length_filter]
  simpa using hlen

theorem length_erase {m : AList fun _ : K => V} {k : K} (h : k ∈ m) :
    (m.erase k).entries.length + 1 = m.entries.length := by
  have hkeys : (m.erase k).keys.length = m.keys.length - 1 := by
    rw [keys_erase, List.length_erase_of_mem h]
  have hpos : 0 < m.keys.length := List.length_pos_of_mem h
  unfold keys List.keys at hkeys hpos
  rw [List.length_map, List.length_map] at hkeys
  rw [List.length_map] at hpos
  omega

theorem length_insert {m : AList fun _ : K => V} {k : K} (v : V) (h : k ∉ m) :
    (m.insert k v).entries.length = m.entries.length + 1 := by
  rw [entries_insert_of_notMem h, List.length_cons]

omit [DecidableEq K] in
theorem length_mapValues (f : K → V → W) (m : AList fun _ : K => V) :
    (m.mapValues f).entries.length = m.entries.length :=
  List.length_map _

end AList

namespace Cut

variable {α β : Type} {le : α → α → Prop} [DecidableRel le]

/-- In a list without repetition that is sorted by an order, the elements from
place `n` on are those with at least `n` others before them. -/
theorem mem_drop_iff [DecidableEq α] : ∀ {l : List α} (n : Nat), (∀ a ∈ l, ∀ b ∈ l, le a b → le b a → a = b) →
    l.Nodup → l.Pairwise le → ∀ {x : α}, x ∈ l →
      (x ∈ l.drop n ↔ n ≤ (l.filter fun y => y ≠ x ∧ le y x).length)
  | y :: l, 0, _, _, _, x, hx => by simpa using hx
  | y :: l, n + 1, anti, hn, hs, x, hx => by
    obtain ⟨hy, hn⟩ := List.nodup_cons.mp hn
    obtain ⟨hle, hs⟩ := List.pairwise_cons.mp hs
    rw [List.drop_succ_cons]
    rcases List.mem_cons.mp hx with rfl | hx
    · -- the first element has nothing before it
      have hnil : (l.filter fun z => z ≠ x ∧ le z x) = [] := by
        apply List.filter_eq_nil_iff.mpr
        intro z hz h
        simp only [ne_eq, decide_eq_true_eq] at h
        exact h.1 (anti z (by simp [hz]) x (by simp) h.2 (hle z hz))
      have hout : x ∉ l.drop n := fun h => hy (List.mem_of_mem_drop h)
      rw [List.filter_cons_of_neg (by simp), hnil]
      simp [hout]
    · have hne : y ≠ x := by
        intro h
        exact hy (h ▸ hx)
      have anti' : ∀ a ∈ l, ∀ b ∈ l, le a b → le b a → a = b := by
        intro a ha b hb
        exact anti a (by simp [ha]) b (by simp [hb])
      rw [mem_drop_iff n anti' hn hs hx]
      simp [hne, hle x hx]

omit [DecidableRel le] in
theorem length_filter_notMem_drop_le [DecidableEq β] (key : α → β) (l : List α) (n : Nat) :
    (l.filter fun x => key x ∉ (l.drop n).map key).length ≤ n := by
  have hdrop : ((l.drop n).filter fun x => key x ∉ (l.drop n).map key) = [] := by
    apply List.filter_eq_nil_iff.mpr
    intro x hx h
    simp only [decide_eq_true_eq] at h
    exact h (List.mem_map_of_mem hx)
  calc (l.filter fun x => key x ∉ (l.drop n).map key).length
      = ((l.take n ++ l.drop n).filter fun x => key x ∉ (l.drop n).map key).length := by
        rw [List.take_append_drop]
    _ = ((l.take n).filter fun x => key x ∉ (l.drop n).map key).length := by
        rw [List.filter_append, hdrop, List.append_nil]
    _ ≤ (l.take n).length := List.length_filter_le _ _
    _ ≤ n := List.length_take_le n l

end Cut
