import Mathlib.Data.Finset.Card
import Mathlib.Data.List.Nodup
import Mathlib.Logic.Relation

/-!
# Following a partial function

A start is followed until the function has no value. Over a finite domain this
ends unless it comes back to where it was; where nothing comes back, the chains
of two starts that meet have one tail.
-/

namespace Descent

variable {α : Type} (next : α → Option α)

/-- Where some steps lead. -/
def climb : Nat → Option α → Option α
  | 0, a => a
  | n + 1, a => climb n (a.bind next)

/-- The elements passed in some steps. -/
def chain : Nat → Option α → List α
  | 0, _ => []
  | _ + 1, none => []
  | n + 1, some a => a :: chain n (next a)

/-- Following the start comes to an end. -/
def Ends (a : Option α) : Prop := ∃ n, climb next n a = none

/-- `b` is the value at `a`. -/
def Next (a b : α) : Prop := next a = some b

/-- Following the start comes back to where it was. -/
def Cycles (a : Option α) : Prop :=
  ∃ s ∈ a, ∃ b, Relation.ReflTransGen (Next next) s b ∧ Relation.TransGen (Next next) b b

/-! ## Steps -/

variable {next}

theorem climb_none : ∀ (n : Nat), climb next n none = none
  | 0 => rfl
  | n + 1 => climb_none n

theorem climb_add : ∀ (m n : Nat) (a : Option α), climb next (m + n) a = climb next n (climb next m a)
  | 0, n, a => by rw [Nat.zero_add]; rfl
  | m + 1, n, a => by
    rw [Nat.succ_add]
    exact climb_add m n (a.bind next)

theorem climb_none_of_le {n m : Nat} {a : Option α} (h : climb next n a = none) (hn : n ≤ m) :
    climb next m a = none := by
  obtain ⟨k, rfl⟩ := Nat.exists_eq_add_of_le hn
  rw [climb_add, h, climb_none]

theorem climb_reach : ∀ (n : Nat) {a b : α}, climb next n (some a) = some b →
    Relation.ReflTransGen (Next next) a b
  | 0, a, b, h => by cases h; exact .refl
  | n + 1, a, b, h => by
    change climb next n (next a) = some b at h
    cases hn : next a with
    | none => rw [hn, climb_none] at h; cases h
    | some c => rw [hn] at h; exact .head hn (climb_reach n h)

theorem reach_climb {a b : α} (h : Relation.ReflTransGen (Next next) a b) :
    ∃ n, climb next n (some a) = some b := by
  induction h using Relation.ReflTransGen.head_induction_on with
  | refl => exact ⟨0, rfl⟩
  | head hac _ ih =>
    obtain ⟨n, hn⟩ := ih
    refine ⟨n + 1, ?_⟩
    change climb next n (next _) = some b
    rw [show next _ = some _ from hac, hn]

/-! ## Ends and cycles -/

theorem Cycles.not_ends {a : Option α} (h : Cycles next a) : ¬ Ends next a := by
  obtain ⟨s, rfl, b, hsb, hbb⟩ := h
  rintro ⟨n, hn⟩
  obtain ⟨c, hbc, hcb⟩ := Relation.TransGen.head'_iff.mp hbb
  obtain ⟨k, hk⟩ := reach_climb hsb
  obtain ⟨m, hm⟩ := reach_climb hcb
  -- going round once is `m + 1` steps
  have hround : climb next (m + 1) (some b) = some b := by
    change climb next m (next b) = some b
    rw [show next b = some c from hbc, hm]
  have hback : ∀ t, climb next (k + t * (m + 1)) (some s) = some b := by
    intro t
    induction t with
    | zero => rw [Nat.zero_mul, Nat.add_zero, hk]
    | succ t ih => rw [Nat.succ_mul, ← Nat.add_assoc, climb_add, ih, hround]
  have hle : n ≤ k + n * (m + 1) := Nat.le_trans (Nat.le_mul_of_pos_right n (Nat.succ_pos m)) (Nat.le_add_left _ _)
  have hnone := climb_none_of_le hn hle
  rw [hback n] at hnone
  cases hnone

section
variable {U : List α} (hU : ∀ a b, next a = some b → a ∈ U)
include hU

theorem cycles_of_climb {a : Option α} (h : climb next (U.length + 1) a ≠ none) : Cycles next a := by
  classical
  cases a with
  | none => exact absurd (climb_none _) h
  | some s =>
    have hsome : ∀ i ≤ U.length + 1, ∃ b, climb next i (some s) = some b := fun i hi =>
      Option.ne_none_iff_exists'.mp fun hn => h (climb_none_of_le hn hi)
    have hmem : ∀ i ∈ Finset.range (U.length + 1), (climb next i (some s)).getD s ∈ U.toFinset := by
      intro i hi
      have hi := Finset.mem_range.mp hi
      obtain ⟨b, hb⟩ := hsome i (by omega)
      obtain ⟨c, hc⟩ := hsome (i + 1) (by omega)
      rw [climb_add, hb] at hc
      rw [hb, Option.getD_some, List.mem_toFinset]
      exact hU b c hc
    have hcard : U.toFinset.card < (Finset.range (U.length + 1)).card := by
      rw [Finset.card_range]
      exact Nat.lt_succ_of_le (List.toFinset_card_le U)
    obtain ⟨i, hi, j, hj, hij, he⟩ := Finset.exists_ne_map_eq_of_card_lt_of_maps_to hcard hmem
    have hlt : ∀ i j, i < j → j < U.length + 1 → (climb next i (some s)).getD s = (climb next j (some s)).getD s →
        Cycles next (some s) := by
      intro i j hij hj he
      obtain ⟨b, hb⟩ := hsome i (by omega)
      obtain ⟨c, hc⟩ := hsome j (by omega)
      obtain ⟨d, hd⟩ := hsome (i + 1) (by omega)
      rw [hb, hc, Option.getD_some, Option.getD_some] at he
      subst he
      rw [climb_add, hb] at hd
      obtain ⟨k, rfl⟩ := Nat.exists_eq_add_of_lt hij
      rw [show i + k + 1 = i + 1 + k by omega, climb_add, climb_add, hb, show climb next 1 (some
        b) = some d from hd] at hc
      exact ⟨s, rfl, b, climb_reach i hb, Relation.TransGen.head' hd (climb_reach k hc)⟩
    rcases Nat.lt_or_gt_of_ne hij with h | h
    · exact hlt i j h (Finset.mem_range.mp hj) he
    · exact hlt j i h (Finset.mem_range.mp hi) he.symm

theorem ends_iff {a : Option α} : Ends next a ↔ ¬ Cycles next a :=
  ⟨fun h hc => hc.not_ends h, fun h => ⟨U.length + 1, not_not.mp fun hn => h (cycles_of_climb hU hn)⟩⟩

theorem climb_of_ends {a : Option α} (h : Ends next a) : climb next (U.length + 1) a = none :=
  not_not.mp fun hn => (cycles_of_climb hU hn).not_ends h

end

/-! ## Chains -/

theorem chain_stable : ∀ {n m : Nat} {a : Option α}, climb next n a = none → n ≤ m →
    chain next m a = chain next n a
  | 0, m, a, h, _ => by
    cases (show a = none from h)
    cases m <;> rfl
  | n + 1, 0, _, _, hn => absurd hn (Nat.not_succ_le_zero n)
  | n + 1, m + 1, none, _, _ => rfl
  | n + 1, m + 1, some a, h, hn => by
    change climb next n (next a) = none at h
    unfold chain
    rw [chain_stable h (Nat.le_of_succ_le_succ hn)]

theorem chain_none : ∀ (n : Nat), chain next n none = []
  | 0 => rfl
  | _ + 1 => rfl

theorem chain_some {n : Nat} {a : α} (h : climb next n (some a) = none) :
    chain next n (some a) = a :: chain next n (next a) := by
  cases n with
  | zero => cases h
  | succ n =>
    change climb next n (next a) = none at h
    rw [chain_stable h (Nat.le_succ n)]
    rfl

theorem reach_of_mem_chain : ∀ (n : Nat) {a b : α}, b ∈ chain next n (some a) →
    Relation.ReflTransGen (Next next) a b
  | 0, _, _, h => by cases h
  | n + 1, a, b, h => by
    rcases List.mem_cons.mp h with rfl | h
    · exact .refl
    · cases hn : next a with
      | none => rw [hn, chain_none] at h; cases h
      | some c => rw [hn] at h; exact .head hn (reach_of_mem_chain n h)

section
variable {n : Nat} (hn : ∀ a, climb next n a = none)
include hn

theorem chain_induction {P : Option α → Prop} (hnil : P none) (hcons : ∀ a, P (next a) → P (some a))
    (a : Option α) :
    P a := by
  have : ∀ (l : List α) (a : Option α), chain next n a = l → P a := by
    intro l
    induction l with
    | nil =>
      intro a h
      cases a with
      | none => exact hnil
      | some a => rw [chain_some (hn _)] at h; cases h
    | cons b l ih =>
      intro a h
      cases a with
      | none => exact hnil
      | some a =>
        rw [chain_some (hn _)] at h
        exact hcons a (ih _ (List.cons.inj h).2)
  exact this _ a rfl

theorem chain_tail {b : α} (a : Option α) (h : b ∈ chain next n a) :
    ∃ front, chain next n a = front ++ chain next n (some b) := by
  induction a using chain_induction hn with
  | hnil => rw [chain_none] at h; cases h
  | hcons a ih =>
    rw [chain_some (hn _)] at h ⊢
    rcases List.mem_cons.mp h with rfl | h
    · exact ⟨[], by rw [List.nil_append, chain_some (hn _)]⟩
    · obtain ⟨front, hf⟩ := ih h
      exact ⟨a :: front, by rw [hf, List.cons_append]⟩

theorem chain_nodup (a : Option α) : (chain next n a).Nodup := by
  induction a using chain_induction hn with
  | hnil => rw [chain_none]; exact List.nodup_nil
  | hcons a ih =>
    rw [chain_some (hn _), List.nodup_cons]
    refine ⟨fun h => ?_, ih⟩
    cases hc : next a with
    | none => rw [hc, chain_none] at h; cases h
    | some c =>
      rw [hc] at h
      exact Cycles.not_ends ⟨a, rfl, a, .refl, Relation.TransGen.head' hc (reach_of_mem_chain n h)⟩ ⟨n, hn _⟩

end

end Descent
