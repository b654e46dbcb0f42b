import Mathlib.Data.List.TakeWhile
import Mathlib.Data.Prod.Lex
import Congruent.SortedMap

/-!
# Rows of an owner

Maps whose keys are an owner and a rank: the rows of one owner stand together, in the order
of their ranks.
-/

namespace SortedMap

variable {G R V : Type} [LinearOrder G] [LinearOrder R]

theorem lexGrouped : Grouped (fun k : G ×ₗ R => (ofLex k).1) fun k => (ofLex k).2 := ⟨fun _ _ => Prod.Lex.le_iff⟩

theorem toLex_le_iff {owner : G} {first : R} {k : G ×ₗ R} (h : (ofLex k).1 = owner) :
    toLex (owner, first) ≤ k ↔ first ≤ (ofLex k).2 :=
  lexGrouped.rank_le_iff (a := toLex (owner, first)) h.symm

/-- The rows of an owner from a rank on, as long as a condition holds of the rank. -/
def rowsFrom (m : SortedMap (G ×ₗ R) V) (owner : G) (first : R) (p : R → Bool) : List (R × V) :=
  ((m.scanFrom (toLex (owner, first))).takeWhile fun e => (ofLex e.1).1 = owner && p (ofLex e.1).2).map fun e =>
    ((ofLex e.1).2, e.2)

variable {m : SortedMap (G ×ₗ R) V} {owner : G} {first rank : R} {p : R → Bool} {v : V}

theorem mem_rowsFrom (hp : ∀ a b, a ≤ b → p b = true → p a = true) :
    (rank, v) ∈ m.rowsFrom owner first p ↔ (toLex (owner, rank), v) ∈ m ∧ first ≤ rank ∧ p rank = true := by
  unfold rowsFrom
  rw [takeWhile_scanFrom (p := fun k : G ×ₗ R => (ofLex k).1 = owner && p (ofLex k).2)]
  · simp only [List.mem_map, List.mem_filter, mem_scanFrom, Bool.and_eq_true, decide_eq_true_eq]
    constructor
    · rintro ⟨⟨k, v'⟩, ⟨⟨hmem, hle⟩, rfl, hpass⟩, heq⟩
      cases heq
      exact ⟨hmem, (toLex_le_iff rfl).mp hle, hpass⟩
    · rintro ⟨hmem, hle, hpass⟩
      exact ⟨(toLex (owner, rank), v), ⟨⟨hmem, Prod.Lex.toLex_le_toLex.mpr (.inr ⟨rfl, hle⟩)⟩, rfl, hpass⟩, rfl⟩
  · intro a b hka hab hb
    simp only [Bool.and_eq_true, decide_eq_true_eq] at hb ⊢
    have hgroup : (ofLex a).1 = (ofLex b).1 := lexGrouped.between hka hab.le hb.1.symm
    exact ⟨hgroup.trans hb.1, hp _ _ ((lexGrouped.rank_le_iff hgroup).mp hab.le) hb.2⟩

theorem rowsFrom_sorted (m : SortedMap (G ×ₗ R) V) (owner : G) (first : R) (p : R → Bool) :
    (m.rowsFrom owner first p).Pairwise fun a b => a.1 < b.1 := by
  refine List.pairwise_map.mpr (List.Pairwise.imp_of_mem ?_
    ((m.pairwise_scanFrom _).sublist (List.takeWhile_sublist _)))
  intro a b ha hb hab
  have ha := List.mem_takeWhile_imp ha
  have hb := List.mem_takeWhile_imp hb
  simp only [Bool.and_eq_true, decide_eq_true_eq] at ha hb
  exact (lexGrouped.rank_lt_iff (ha.1.trans hb.1.symm)).mp hab

end SortedMap
