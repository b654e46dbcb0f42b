import Mathlib.Logic.Basic

/-!
# Runs of a partial step function

`ok` is a condition on each step, read in the state before it.
-/

namespace Congruent

variable {S A : Type} {step : A → S → Option S} {ok : A → S → Prop} {s₀ s s' : S} {a : A}

/-- The states reached by runs whose steps all meet `ok`. -/
inductive Reaches (step : A → S → Option S) (ok : A → S → Prop) (s₀ : S) : S → Prop where
  | init : Reaches step ok s₀ s₀
  | next {s s' : S} (a : A) : Reaches step ok s₀ s → ok a s → step a s = some s' → Reaches step ok s₀ s'

theorem Reaches.invariant {P : S → Prop} (h₀ : P s₀)
    (hstep : ∀ a s s', P s → ok a s → step a s = some s' → P s') (h : Reaches step ok s₀ s) : P s := by
  induction h with
  | init => exact h₀
  | next a _ hok hs ih => exact hstep a _ _ ih hok hs

theorem Reaches.mono {ok' : A → S → Prop} (h : Reaches step ok s₀ s) (hok : ∀ a s, ok a s → ok' a s) :
    Reaches step ok' s₀ s := by
  induction h with
  | init => exact .init
  | next a _ ha hs ih => exact .next a ih (hok _ _ ha) hs

/-- A run by its actions, stopping at the first that does not meet the condition. -/
def runWhile (step : A → S → Option S) (ok : A → S → Prop) [∀ a s, Decidable (ok a s)] : List A → S → Option S
  | [], s => some s
  | a :: as, s => if ok a s then (step a s).bind (runWhile step ok as) else none

theorem Reaches.of_runWhile [∀ a s, Decidable (ok a s)] (as : List A) (h : Reaches step ok s₀ s)
    (hrun : runWhile step ok as s = some s') : Reaches step ok s₀ s' := by
  induction as generalizing s with
  | nil =>
    rw [runWhile, Option.some.injEq] at hrun
    exact hrun ▸ h
  | cons a as ih =>
    rw [runWhile] at hrun
    by_cases hok : ok a s
    · rw [if_pos hok] at hrun
      obtain ⟨t, ht, hrun⟩ := Option.bind_eq_some_iff.mp hrun
      exact ih (.next a h hok ht) hrun
    · simp [hok] at hrun

theorem exists_of_map {B C : Type} {x : Option B} (g : B → C) {v : C} (hmap : x.map g = some v) {P : B → Prop}
    (h : ∀ b, x = some b → g b = v → P b) : ∃ b, x = some b ∧ P b := by
  obtain ⟨b, hb, hv⟩ := Option.map_eq_some_iff.mp hmap
  exact ⟨b, hb, h b hb hv⟩

/-! ## Pools of tasks -/

section
variable {T : Type} {pool : List T} {i : Nat} {t : T}

theorem getElem?_set_of_some (hi : pool[i]? = some t) (new : T) (j : Nat) :
    (pool.set i new)[j]? = if j = i then some new else pool[j]? := by
  have hlt := (List.getElem?_eq_some_iff.mp hi).1
  rw [List.getElem?_set]
  by_cases h : j = i
  · rw [if_pos h.symm, if_pos hlt, if_pos h]
  · rw [if_neg (Ne.symm h), if_neg h]

theorem mem_set_of_some (hi : pool[i]? = some t) {new t' : T} (h : t' ∈ pool.set i new) :
    t' = new ∨ ∃ j, j ≠ i ∧ pool[j]? = some t' := by
  obtain ⟨j, hj⟩ := List.mem_iff_getElem?.mp h
  rw [getElem?_set_of_some hi] at hj
  by_cases hji : j = i
  · rw [if_pos hji, Option.some.injEq] at hj
    exact .inl hj.symm
  · rw [if_neg hji] at hj
    exact .inr ⟨j, hji, hj⟩

theorem mem_set_of_ne (hi : pool[i]? = some t) {new t' : T} {j : Nat} (hj : pool[j]? = some t') (hne : j ≠ i) :
    t' ∈ pool.set i new := by
  refine List.mem_iff_getElem?.mpr ⟨j, ?_⟩
  rw [getElem?_set_of_some hi, if_neg hne, hj]

theorem eq_or_mem_set (hi : pool[i]? = some t) (new : T) {t' : T} (h : t' ∈ pool) : t' = t ∨
    t' ∈ pool.set i new := by
  obtain ⟨j, hj⟩ := List.mem_iff_getElem?.mp h
  by_cases hji : j = i
  · rw [hji, hi, Option.some.injEq] at hj
    exact .inl hj.symm
  · exact .inr (mem_set_of_ne hi hj hji)

/-- Two tasks that exclude each other do so still when one of them goes on to what excludes
none of the others. -/
theorem apart_set {R : T → T → Prop} (hi : pool[i]? = some t) {new : T}
    (h : ∀ (j k : Nat) (a b : T), pool[j]? = some a → pool[k]? = some b → R a b → j = k)
    (hnew : ∀ (j : Nat) (a : T), j ≠ i → pool[j]? = some a → ¬ R new a ∧ ¬ R a new) {j k : Nat} {a b : T}
    (hj : (pool.set i new)[j]? = some a) (hk : (pool.set i new)[k]? = some b) (hab : R a b) : j = k := by
  rw [getElem?_set_of_some hi] at hj hk
  split at hj
  · rename_i hji
    cases hj
    split at hk
    · rename_i hki
      rw [hji, hki]
    · rename_i hki
      exact absurd hab (hnew k b hki hk).1
  · rename_i hji
    split at hk
    · cases hk
      exact absurd hab (hnew j a hji hj).2
    · exact h j k a b hj hk hab

theorem split_at_task (hi : pool[i]? = some t) :
    ∃ l r, pool = l ++ t :: r ∧ ∀ new, pool.set i new = l ++ new :: r := by
  obtain ⟨hlt, rfl⟩ := List.getElem?_eq_some_iff.mp hi
  refine ⟨pool.take i, pool.drop (i + 1), ?_, fun new => ?_⟩
  · rw [List.getElem_cons_drop, List.take_append_drop]
  · rw [List.set_eq_take_append_cons_drop, if_pos hlt]

theorem filterMap_set_of_sole {B : Type} {f : T → Option B} (hi : pool[i]? = some t)
    (hsole : pool.filterMap f = (f t).toList) (new : T) : (pool.set i new).filterMap f = (f new).toList := by
  obtain ⟨l, r, rfl, hset⟩ := split_at_task hi
  rw [hset, List.filterMap_append, List.filterMap_cons]
  rw [List.filterMap_append, List.filterMap_cons] at hsole
  have hrest : l.filterMap f = [] ∧ r.filterMap f = [] := by
    cases hf : f t with
    | none =>
      rw [hf] at hsole
      exact List.append_eq_nil_iff.mp hsole
    | some b =>
      have hlen := congrArg List.length hsole
      simp only [hf, List.length_append, List.length_cons, Option.toList_some, List.length_nil] at hlen
      exact ⟨List.length_eq_zero_iff.mp (by omega), List.length_eq_zero_iff.mp (by omega)⟩
  rw [hrest.1, hrest.2]
  cases f new <;> rfl

theorem filterMap_set_of_none {B : Type} {f : T → Option B} (hi : pool[i]? = some t) (ht : f t = none) {new : T}
    (hnew : f new = none) : (pool.set i new).filterMap f = pool.filterMap f := by
  obtain ⟨l, r, rfl, hset⟩ := split_at_task hi
  rw [hset, List.filterMap_append, List.filterMap_append, List.filterMap_cons_none ht,
    List.filterMap_cons_none hnew]

theorem getElem?_concat {j : Nat} {new t' : T} (hj : (pool ++ [new])[j]? = some t') :
    pool[j]? = some t' ∨ j = pool.length ∧ t' = new := by
  rw [List.getElem?_append] at hj
  split at hj
  · exact .inl hj
  · rename_i hlt
    obtain ⟨hj0, rfl⟩ := List.getElem?_eq_some_iff.mp hj
    refine .inr ⟨?_, List.getElem_singleton _⟩
    rw [List.length_singleton] at hj0
    omega

theorem two_le_countP {p : T → Bool} {j : Nat} {t' : T} (hi : pool[i]? = some t) (hj : pool[j]? = some t')
    (hne : i ≠ j) (ht : p t = true) (ht' : p t' = true) : 2 ≤ pool.countP p := by
  induction pool generalizing i j with
  | nil => cases hi
  | cons x pool ih =>
    cases i with
    | zero =>
      cases j with
      | zero => exact absurd rfl hne
      | succ j =>
        cases hi
        rw [List.countP_cons_of_pos ht]
        exact Nat.succ_le_succ (List.countP_pos_iff.mpr ⟨t', List.mem_of_getElem? hj, ht'⟩)
    | succ i =>
      cases j with
      | zero =>
        cases hj
        rw [List.countP_cons_of_pos ht']
        exact Nat.succ_le_succ (List.countP_pos_iff.mpr ⟨t, List.mem_of_getElem? hi, ht⟩)
      | succ j =>
        rw [List.countP_cons]
        exact Nat.le_trans (ih hi hj fun h => hne (congrArg Nat.succ h)) (Nat.le_add_right _ _)

theorem mem_set_self (hi : pool[i]? = some t) (new : T) : new ∈ pool.set i new := by
  refine List.mem_iff_getElem?.mpr ⟨i, ?_⟩
  rw [getElem?_set_of_some hi, if_pos rfl]

end

end Congruent
