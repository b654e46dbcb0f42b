import Mathlib.Data.List.Sort
import Mathlib.Order.Compare

/-!
# Binary search in a slice

The search of `slice::binary_search_by`: in a slice whose keys increase it finds the
entry of a key, where there is one.
-/

namespace Congruent

/-- The loop of `slice::binary_search_by`: the base after the size fell to one. -/
def binarySearchBase {α : Type} (cmp : α → Ordering) (l : List α) : (fuel size base : Nat) → Nat
  | 0, _, base => base
  | fuel + 1, size, base =>
    if size > 1 then
      let half := size / 2
      let mid := base + half
      let base := if (l[mid]?.map cmp) = some .gt then base else mid
      binarySearchBase cmp l fuel (size - half) base
    else base

/-- `slice::binary_search_by(..).ok()`. -/
def binarySearchBy {α : Type} (cmp : α → Ordering) (l : List α) : Option Nat :=
  let base := binarySearchBase cmp l l.length l.length 0
  if (l[base]?.map cmp) = some .eq then some base else none

section
variable {α κ : Type} [LinearOrder κ] {f : α → κ} {l : List α} {k : κ}

theorem getElem_lt_of_increasing (hl : l.Pairwise fun a b => f a < f b) {i j : Nat} (hj : j < l.length)
    (hij : i < j) : f l[i] < f l[j] :=
  List.pairwise_iff_getElem.mp hl i j (hij.trans hj) hj hij

theorem binarySearchBase_eq (hl : l.Pairwise fun a b => f a < f b) {j : Nat} (hj : j < l.length) (hk : f l[j] = k) :
    ∀ fuel size base, size ≤ fuel + 1 → base + size ≤ l.length → base ≤ j → j < base + size →
      binarySearchBase (fun a => compare (f a) k) l fuel size base = j
  | 0, size, base, hfuel, hlen, hlow, hhigh => by
    unfold binarySearchBase
    omega
  | fuel + 1, size, base, hfuel, hlen, hlow, hhigh => by
    unfold binarySearchBase
    by_cases hsize : size > 1
    · rw [if_pos hsize]
      have hmid : base + size / 2 < l.length := by omega
      simp only [List.getElem?_eq_getElem hmid, Option.map_some, Option.some.injEq, compare_gt_iff_gt]
      split
      · rename_i hgt
        have hlt : j < base + size / 2 := by
          by_contra hle
          rcases Nat.lt_or_eq_of_le (Nat.le_of_not_lt hle) with hlt | heq
          · have := getElem_lt_of_increasing hl hj hlt
            rw [hk] at this
            exact lt_asymm hgt this
          · subst heq
            exact absurd hk (ne_of_gt hgt)
        exact binarySearchBase_eq hl hj hk _ _ _ (by omega) (by omega) hlow (by omega)
      · rename_i hle
        have hge : base + size / 2 ≤ j := by
          by_contra hlt
          have := getElem_lt_of_increasing hl hmid (Nat.lt_of_not_le hlt)
          rw [hk] at this
          exact hle this
        exact binarySearchBase_eq hl hj hk _ _ _ (by omega) (by omega) hge (by omega)
    · rw [if_neg hsize]
      omega

theorem binarySearchBy_some {cmp : α → Ordering} {i : Nat} (h : binarySearchBy cmp l = some i) :
    ∃ hi : i < l.length, cmp l[i] = .eq := by
  unfold binarySearchBy at h
  simp only [Option.ite_none_right_eq_some, Option.some.injEq] at h
  obtain ⟨hcmp, rfl⟩ := h
  obtain ⟨a, ha, heq⟩ := Option.map_eq_some_iff.mp hcmp
  obtain ⟨hi, rfl⟩ := List.getElem?_eq_some_iff.mp ha
  exact ⟨hi, heq⟩

theorem binarySearchBy_eq_some (hl : l.Pairwise fun a b => f a < f b) {i : Nat} :
    binarySearchBy (fun a => compare (f a) k) l = some i ↔ ∃ hi : i < l.length, f l[i] = k := by
  constructor
  · intro h
    obtain ⟨hi, heq⟩ := binarySearchBy_some h
    exact ⟨hi, compare_eq_iff_eq.mp heq⟩
  · rintro ⟨hi, hk⟩
    unfold binarySearchBy
    rw [binarySearchBase_eq hl hi hk _ _ _ (by omega) (by omega) (by omega) (by omega)]
    simp [List.getElem?_eq_getElem hi, hk]

end

end Congruent
