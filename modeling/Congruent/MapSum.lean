import Mathlib.Algebra.BigOperators.Group.Multiset.Basic
import Mathlib.Data.Finmap

/-!
# Sums over maps

What the sum of a function of the entries becomes when entries are put, replaced or taken
away, in a commutative group. A list of changes is applied one by one; only the last for
a key is seen.
-/

theorem List.foldl_eq_add_sum {A G : Type} [AddMonoid G] {f : G → A → G} {term : A → G} {l : List A}
    (h : ∀ a ∈ l, ∀ g, f g a = g + term a) (g : G) : l.foldl f g = g + (l.map term).sum := by
  induction l generalizing g with
  | nil => simp
  | cons a l ih =>
    rw [List.foldl_cons, h a List.mem_cons_self, ih fun b hb => h b (List.mem_cons_of_mem a hb), List.map_cons,
      List.sum_cons, add_assoc]

namespace Finmap

variable {K V G : Type} [DecidableEq K]

/-! ## Changes -/

/-- A value put, or a key taken away. -/
def mutate (m : Finmap fun _ : K => V) (c : K × Option V) : Finmap fun _ : K => V :=
  match c.2 with
  | some v => m.insert c.1 v
  | none => m.erase c.1

def mutateAll (m : Finmap fun _ : K => V) (l : List (K × Option V)) : Finmap fun _ : K => V := l.foldl mutate m

theorem lookup_mutate (m : Finmap fun _ : K => V) (c : K × Option V) (k : K) :
    (m.mutate c).lookup k = if k = c.1 then c.2 else m.lookup k := by
  obtain ⟨a, v⟩ := c
  by_cases h : k = a
  · subst h
    rw [if_pos rfl]
    cases v with
    | none => exact lookup_erase k m
    | some v => exact lookup_insert m
  · rw [if_neg h]
    cases v with
    | none => exact lookup_erase_ne h
    | some v => exact lookup_insert_of_ne m h

theorem lookup_mutateAll {l : List (K × Option V)} {m : Finmap fun _ : K => V} {k : K} {v : Option V}
    (hsame : ∀ v', (k, v') ∈ l → v' = v) (hold : (∀ v', (k, v') ∉ l) → m.lookup k = v) :
    (m.mutateAll l).lookup k = v := by
  induction l generalizing m with
  | nil => exact hold fun v' => List.not_mem_nil
  | cons c l ih =>
    apply ih fun v' h => hsame v' (List.mem_cons_of_mem c h)
    intro hnot
    rw [lookup_mutate]
    by_cases hk : k = c.1
    · rw [if_pos hk]
      exact hsame c.2 (List.mem_cons.mpr (.inl (by rw [hk])))
    · rw [if_neg hk]
      apply hold
      intro v' h
      rcases List.mem_cons.mp h with rfl | h
      · exact hk rfl
      · exact hnot v' h

/-! ## Sums -/

def sumOf [AddCommMonoid G] (f : K → V → G) (m : Finmap fun _ : K => V) : G :=
  (m.entries.map fun e => f e.1 e.2).sum

omit [DecidableEq K] in
theorem sumOf_toFinmap [AddCommMonoid G] (f : K → V → G) (m : AList fun _ : K => V) :
    sumOf f m.toFinmap = (m.entries.map fun e => f e.1 e.2).sum := by
  unfold sumOf
  rw [AList.toFinmap_entries, Multiset.map_coe, Multiset.sum_coe]

theorem sumOf_congr [AddCommMonoid G] {f g : K → V → G} {m : Finmap fun _ : K => V}
    (h : ∀ k v, m.lookup k = some v → f k v = g k v) : sumOf f m = sumOf g m := by
  unfold sumOf
  congr 1
  apply Multiset.map_congr rfl
  intro e he
  exact h e.1 e.2 (lookup_eq_some_iff.mpr he)

theorem sumOf_insert_of_notMem [AddCommMonoid G] (f : K → V → G) {m : Finmap fun _ : K => V} {k : K}
    (h : k ∉ m) (v : V) :
    sumOf f (m.insert k v) = f k v + sumOf f m := by
  unfold sumOf
  rw [entries_insert_of_notMem h, Multiset.map_cons, Multiset.sum_cons]

theorem insert_erase_self (m : Finmap fun _ : K => V) (k : K) (v : V) : (m.erase k).insert k v = m.insert k v := by
  apply ext_lookup
  intro a
  by_cases h : a = k
  · rw [h, lookup_insert, lookup_insert]
  · rw [lookup_insert_of_ne _ h, lookup_insert_of_ne _ h, lookup_erase_ne h]

theorem insert_of_lookup {m : Finmap fun _ : K => V} {k : K} {v : V} (h : m.lookup k = some v) :
    m.insert k v = m := by
  apply ext_lookup
  intro a
  by_cases ha : a = k
  · rw [ha, lookup_insert, h]
  · rw [lookup_insert_of_ne _ ha]

theorem sumOf_erase_add [AddCommMonoid G] (f : K → V → G) {m : Finmap fun _ : K => V} {k : K} {v : V}
    (h : m.lookup k = some v) : f k v + sumOf f (m.erase k) = sumOf f m := by
  rw [← sumOf_insert_of_notMem f notMem_erase_self v, insert_erase_self, insert_of_lookup h]

theorem sumOf_insert_of_lookup [AddCommGroup G] (f : K → V → G) {m : Finmap fun _ : K => V} {k : K} {old : V}
    (h : m.lookup k = some old) (v : V) : sumOf f (m.insert k v) = sumOf f m - f k old + f k v := by
  rw [← sumOf_erase_add f h, ← insert_erase_self, sumOf_insert_of_notMem f notMem_erase_self,
    add_sub_cancel_left, add_comm]

end Finmap
