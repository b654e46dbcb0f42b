import Mathlib.Algebra.GroupWithZero.Nat
import Mathlib.Data.List.Basic
import Mathlib.Logic.Relation

/-!
# Worklist search

Search with a list of pending nodes, depth first with a stack or in another order
by how new nodes are put to the pending ones. With enough fuel it visits exactly
the nodes reachable from the seeds.
-/

namespace Worklist

variable {α : Type} [DecidableEq α] (succ : α → List α)

/-- The nodes seen after at most `fuel` pops of the stack. -/
def visit : (fuel : Nat) → (work seen : List α) → List α
  | 0, _, seen => seen
  | _ + 1, [], seen => seen
  | n + 1, x :: work, seen =>
    if x ∈ seen then visit n work seen else visit n (succ x ++ work) (x :: seen)

/-- The search where the successors of a node join the pending ones by `push`. -/
def visitBy (push : List α → List α → List α) : (fuel : Nat) → (work seen : List α) → List α
  | 0, _, seen => seen
  | _ + 1, [], seen => seen
  | n + 1, x :: work, seen =>
    if x ∈ seen then visitBy push n work seen else visitBy push n (push (succ x) work) (x :: seen)

/-- `b` is reachable from `a`. -/
def Reach (a b : α) : Prop := Relation.ReflTransGen (fun x y => y ∈ succ x) a b

/-- The successors of the nodes of `U` that are still to be pushed. -/
def remaining (U seen : List α) : Nat := (U.map fun y => if y ∈ seen then 0 else (succ y).length).sum

theorem remaining_head (y : α) (U seen : List α) :
    remaining succ (y :: U) seen = (if y ∈ seen then 0 else (succ y).length) + remaining succ U seen := by
  simp only [remaining, List.map_cons, List.sum_cons]

theorem remaining_cons_le (U seen : List α) (x : α) : remaining succ U (x :: seen) ≤ remaining succ U seen := by
  induction U with
  | nil => exact Nat.le_refl _
  | cons y U ih =>
    rw [remaining_head, remaining_head]
    refine Nat.add_le_add ?_ ih
    by_cases hy : y ∈ seen
    · simp [hy]
    · simp only [hy, if_false]
      split
      · exact Nat.zero_le _
      · exact Nat.le_refl _

theorem remaining_cons {U seen : List α} {x : α} (hx : x ∉ seen) (hU : x ∈ U ∨ succ x = []) :
    remaining succ U (x :: seen) + (succ x).length ≤ remaining succ U seen := by
  rcases hU with hU | h0
  · induction U with
    | nil => cases hU
    | cons y U ih =>
      rw [remaining_head, remaining_head]
      by_cases hy : y = x
      · subst hy
        have := remaining_cons_le succ U seen y
        rw [if_pos (List.mem_cons_self), if_neg hx]
        omega
      · have := ih ((List.mem_cons.mp hU).resolve_left (Ne.symm hy))
        have hm : (y ∈ x :: seen) ↔ y ∈ seen := by simp [hy]
        simp only [hm]
        omega
  · rw [h0]
    exact remaining_cons_le succ U seen x

theorem visit_eq_visitBy : ∀ (n : Nat) (work seen : List α), visit succ n work seen = visitBy succ
    (· ++ ·) n work seen
  | 0, _, _ => rfl
  | _ + 1, [], _ => rfl
  | n + 1, x :: work, seen => by
    unfold visit visitBy
    rw [visit_eq_visitBy n work, visit_eq_visitBy n (succ x ++ work)]

section
variable {push : List α → List α → List α} (hpush : ∀ new work, (push new work).Perm (new ++ work))

include hpush in
theorem visitBy_sound : ∀ (n : Nat) (work seen : List α) (x : α), x ∈ visitBy succ push n work seen →
    x ∈ seen ∨ ∃ w ∈ work, Reach succ w x
  | 0, _, _, _, h => Or.inl h
  | _ + 1, [], _, _, h => Or.inl h
  | n + 1, y :: work, seen, x, h => by
    unfold visitBy at h
    split at h
    · rcases visitBy_sound n work seen x h with h | ⟨w, hw, hr⟩
      · exact Or.inl h
      · exact Or.inr ⟨w, List.mem_cons_of_mem _ hw, hr⟩
    · rcases visitBy_sound n _ _ x h with h | ⟨w, hw, hr⟩
      · rcases List.mem_cons.mp h with rfl | h
        · exact Or.inr ⟨x, by simp, Relation.ReflTransGen.refl⟩
        · exact Or.inl h
      · rcases List.mem_append.mp ((hpush _ _).mem_iff.mp hw) with hw | hw
        · exact Or.inr ⟨y, by simp, Relation.ReflTransGen.head hw hr⟩
        · exact Or.inr ⟨w, List.mem_cons_of_mem _ hw, hr⟩

theorem seen_subset_visitBy : ∀ (n : Nat) (work seen : List α), seen ⊆ visitBy succ push n work seen
  | 0, _, _ => fun _ h => h
  | _ + 1, [], _ => fun _ h => h
  | n + 1, y :: work, seen => by
    unfold visitBy
    split
    · exact seen_subset_visitBy n work seen
    · exact fun x hx => seen_subset_visitBy n _ _ (List.mem_cons_of_mem _ hx)

theorem visitBy_nodup : ∀ (n : Nat) (work seen : List α), seen.Nodup → (visitBy succ push n work seen).Nodup
  | 0, _, _, h => h
  | _ + 1, [], _, h => h
  | n + 1, y :: work, seen, h => by
    unfold visitBy
    split
    · exact visitBy_nodup n work seen h
    · rename_i hy
      exact visitBy_nodup n _ _ (List.nodup_cons.mpr ⟨hy, h⟩)

variable (U : List α) (hU : ∀ x, x ∈ U ∨ succ x = [])
include hpush hU

theorem visitBy_closed : ∀ (n : Nat) (work seen : List α), work.length + remaining succ U seen ≤ n →
    (∀ a ∈ seen, ∀ b ∈ succ a, b ∈ seen ∨ b ∈ work) →
    work ⊆ visitBy succ push n work seen ∧
      ∀ a ∈ visitBy succ push n work seen, ∀ b ∈ succ a, b ∈ visitBy succ push n work seen
  | 0, work, seen, hn, hc => by
    have : work = [] := List.eq_nil_of_length_eq_zero (by omega)
    subst this
    exact ⟨List.nil_subset _, fun a ha b hb => (hc a ha b hb).resolve_right (by simp)⟩
  | _ + 1, [], seen, _, hc =>
    ⟨List.nil_subset _, fun a ha b hb => (hc a ha b hb).resolve_right (by simp)⟩
  | n + 1, x :: work, seen, hn, hc => by
    simp only [List.length_cons] at hn
    by_cases hx : x ∈ seen
    · have ih := visitBy_closed n work seen (by omega) fun a ha b hb => by
        rcases hc a ha b hb with h | h
        · exact Or.inl h
        · rcases List.mem_cons.mp h with rfl | h
          · exact Or.inl hx
          · exact Or.inr h
      simp only [visitBy, hx, if_true]
      exact ⟨List.cons_subset.mpr ⟨seen_subset_visitBy succ n work seen hx, ih.1⟩, ih.2⟩
    · have hr := remaining_cons succ hx (hU x)
      have hp := hpush (succ x) work
      have hlen := hp.length_eq
      rw [List.length_append] at hlen
      have ih := visitBy_closed n (push (succ x) work) (x :: seen) (by omega)
        fun a ha b hb => by
          rcases List.mem_cons.mp ha with rfl | ha
          · exact Or.inr (hp.mem_iff.mpr (List.mem_append_left _ hb))
          · rcases hc a ha b hb with h | h
            · exact Or.inl (List.mem_cons_of_mem _ h)
            · rcases List.mem_cons.mp h with rfl | h
              · exact Or.inl (by simp)
              · exact Or.inr (hp.mem_iff.mpr (List.mem_append_right _ h))
      simp only [visitBy, hx, if_false]
      refine ⟨List.cons_subset.mpr ⟨seen_subset_visitBy succ n _ _ (by simp), ?_⟩, ih.2⟩
      exact fun y hy => ih.1 (hp.mem_iff.mpr (List.mem_append_right _ hy))

theorem mem_visitBy {n : Nat} {seeds : List α} (hn : seeds.length + remaining succ U [] ≤ n) (x : α) :
    x ∈ visitBy succ push n seeds [] ↔ ∃ s ∈ seeds, Reach succ s x := by
  constructor
  · intro h
    exact (visitBy_sound succ hpush n seeds [] x h).resolve_left (by simp)
  · rintro ⟨s, hs, hr⟩
    obtain ⟨hsub, hcl⟩ := visitBy_closed succ hpush U hU n seeds [] hn (by simp)
    induction hr with
    | refl => exact hsub hs
    | tail _ hbc ih => exact hcl _ ih _ hbc

end

/-! ## The search with a stack -/

theorem visit_sound (n : Nat) (work seen : List α) (x : α) (h : x ∈ visit succ n work seen) :
    x ∈ seen ∨ ∃ w ∈ work, Reach succ w x := by
  rw [visit_eq_visitBy] at h
  exact visitBy_sound succ (fun _ _ => List.Perm.refl _) n work seen x h

theorem visit_nodup (n : Nat) (work seen : List α) (h : seen.Nodup) : (visit succ n work seen).Nodup := by
  rw [visit_eq_visitBy]
  exact visitBy_nodup succ n work seen h

theorem mem_visit (U : List α) (hU : ∀ x, x ∈ U ∨ succ x = []) {n : Nat} {seeds : List α}
    (hn : seeds.length + remaining succ U [] ≤ n) (x : α) :
    x ∈ visit succ n seeds [] ↔ ∃ s ∈ seeds, Reach succ s x := by
  rw [visit_eq_visitBy]
  exact mem_visitBy succ (fun _ _ => List.Perm.refl _) U hU hn x

end Worklist
