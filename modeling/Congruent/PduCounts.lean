import Congruent.Words

/-!
# Counts of events (`pdu/count.rs`)

The position of an event in its room: an unsigned count of what arrived, or a signed one
of what was backfilled before. Steps are taken on either word, with casts between them.
-/

namespace Congruent

open Words

inductive Count where
  | normal (i : UInt64)
  | backfilled (i : Int64)
  deriving DecidableEq

inductive Direction where
  | forward
  | backward
  deriving DecidableEq

namespace Count

def fromSigned (signed : Int64) : Count := if signed.toInt ≤ 0 then .backfilled signed else .normal signed.toUInt64

def fromUnsigned (unsigned : UInt64) : Count := fromSigned unsigned.toInt64

def intoUnsigned : Count → UInt64
  | normal i => i
  | backfilled i => i.toUInt64

def intoSigned : Count → Int64
  | normal i => i.toInt64
  | backfilled i => i

def max : Count := .normal 9223372036854775807

def min : Count := .backfilled (-9223372036854775808)

/-! ## Steps -/

def checkedAdd (self : Count) (add : UInt64) : Except String Count :=
  match self with
  | normal i =>
    match U64.checkedAdd i add with
    | some i => .ok (.normal i)
    | none => .error "Count::Normal overflow"
  | backfilled i =>
    match I64.checkedAdd i add.toInt64 with
    | some i => .ok (.backfilled i)
    | none => .error "Count::Backfilled overflow"

def checkedSub (self : Count) (sub : UInt64) : Except String Count :=
  match self with
  | normal i =>
    match U64.checkedSub i sub with
    | some i => .ok (.normal i)
    | none => .error "Count::Normal underflow"
  | backfilled i =>
    match I64.checkedSub i sub.toInt64 with
    | some i => .ok (.backfilled i)
    | none => .error "Count::Backfilled underflow"

def checkedInc (self : Count) : Direction → Except String Count
  | .forward => self.checkedAdd 1
  | .backward => self.checkedSub 1

def saturatingAdd (self : Count) (add : UInt64) : Count :=
  match self with
  | normal i =>
    let sum := U64.saturatingAdd i add
    .normal (if sum.toNat ≤ 9223372036854775807 then sum else 9223372036854775807)
  | backfilled i => fromSigned (I64.saturatingAdd i ((I64.tryFrom add).getD 9223372036854775807))

def saturatingSub (self : Count) (sub : UInt64) : Count :=
  match self with
  | normal i =>
    match U64.checkedSub i sub with
    | some res => .normal res
    | none => .backfilled (I64.saturatingSub 0 (U64.saturatingSub sub i).toInt64)
  | backfilled i => .backfilled (I64.saturatingSub i sub.toInt64)

def saturatingInc (self : Count) : Direction → Count
  | .forward => self.saturatingAdd 1
  | .backward => self.saturatingSub 1

/-! ## The integers counts stand for -/

/-- The variant matches the sign. -/
def Valid : Count → Prop
  | normal i => i.toNat < 2 ^ 63
  | backfilled i => i.toInt ≤ 0

instance : ∀ c : Count, Decidable c.Valid
  | normal i => inferInstanceAs (Decidable (i.toNat < 2 ^ 63))
  | backfilled i => inferInstanceAs (Decidable (i.toInt ≤ 0))

def value (c : Count) : Int := c.intoSigned.toInt

def Is (c : Count) (n : Int) : Prop := c.Valid ∧ c.value = n

instance (c : Count) (n : Int) : Decidable (c.Is n) := inferInstanceAs (Decidable (_ ∧ _))

def ChecksTo (r : Except String Count) (n : Int) : Prop :=
  match r with
  | .ok c => c.Is n
  | .error _ => ¬InRange n

theorem value_normal {i : UInt64} (h : i.toNat < 2 ^ 63) : (normal i).value = i.toNat := by
  rw [value, intoSigned, I64.toInt_toInt64, if_pos h]

theorem fromSigned_is (signed : Int64) : (fromSigned signed).Is signed.toInt := by
  unfold fromSigned
  have hrange := I64.inRange signed
  by_cases h : signed.toInt ≤ 0
  · rw [if_pos h]
    exact ⟨h, rfl⟩
  · rw [if_neg h]
    have hcast := I64.toNat_toUInt64 signed
    rw [if_pos (by omega)] at hcast
    have hvalid : signed.toUInt64.toNat < 2 ^ 63 := by
      have := hrange.2
      omega
    exact ⟨hvalid, (value_normal hvalid).trans hcast⟩

/-! ## Where the steps are exact -/

/-- The amount is not cut to a signed word, or the cut does not matter. -/
def AddSaturates (c : Count) (n : UInt64) : Prop := n.toNat < 2 ^ 63 ∨ 0 ≤ c.value

/-- What is taken below zero fits a signed word. -/
def SubSaturates (c : Count) (n : UInt64) : Prop := (n.toNat : Int) < 2 ^ 63 + Max.max c.value 0

/-- The sum is a valid count of the same variant, or past the unsigned words. -/
def AddChecks (n : UInt64) : Count → Prop
  | normal i => i.toNat + n.toNat < 2 ^ 63 ∨ 2 ^ 64 ≤ i.toNat + n.toNat
  | backfilled i => n.toNat < 2 ^ 63 ∧ i.toInt + n.toNat ≤ 0

/-- The difference is a valid count of the same variant, or past the signed words. -/
def SubChecks (n : UInt64) : Count → Prop
  | normal i => n.toNat ≤ i.toNat ∨ i.toNat + 2 ^ 63 < n.toNat
  | backfilled _ => n.toNat < 2 ^ 63

def IncChecks (c : Count) : Direction → Prop
  | .forward => c.AddChecks 1
  | .backward => c.SubChecks 1

section
variable {c : Count} (hc : c.Valid) (n : UInt64)
include hc

theorem saturatingAdd_iff : (c.saturatingAdd n).Is (clamp (c.value + n.toNat)) ↔ c.AddSaturates n := by
  unfold AddSaturates
  cases c with
  | normal i =>
    have hi : i.toNat < 2 ^ 63 := hc
    have hsum := U64.toNat_saturatingAdd i n
    have hn := n.toNat_lt
    rw [value_normal hi]
    refine iff_of_true ?_ (Or.inr (Int.natCast_nonneg _))
    unfold saturatingAdd clamp
    simp only
    split
    · rename_i hle
      have hlt : (U64.saturatingAdd i n).toNat < 2 ^ 63 := by omega
      refine ⟨hlt, (value_normal hlt).trans ?_⟩
      omega
    · have hlt : (9223372036854775807 : UInt64).toNat < 2 ^ 63 := by decide
      refine ⟨hlt, (value_normal hlt).trans ?_⟩
      show (9223372036854775807 : Int) = _
      omega
  | backfilled i =>
    have hi : i.toInt ≤ 0 := hc
    have hrange := I64.inRange i
    have hlow := hrange.1
    have hres := fromSigned_is (I64.saturatingAdd i ((I64.tryFrom n).getD 9223372036854775807))
    rw [I64.toInt_saturatingAdd] at hres
    show (fromSigned _).Is (clamp (i.toInt + n.toNat)) ↔ n.toNat < 2 ^ 63 ∨ 0 ≤ i.toInt
    unfold Is at hres ⊢
    rw [and_iff_right hres.1, hres.2]
    unfold I64.tryFrom
    by_cases hn : n.toNat < 2 ^ 63
    · rw [if_pos hn, Option.getD_some, I64.toInt_toInt64, if_pos hn]
      exact iff_of_true rfl (Or.inl hn)
    · rw [if_neg hn, Option.getD_none, show (9223372036854775807 : Int64).toInt = 9223372036854775807 from rfl]
      unfold clamp
      omega

theorem saturatingSub_iff : (c.saturatingSub n).Is (clamp (c.value - n.toNat)) ↔ c.SubSaturates n := by
  unfold SubSaturates
  have hn := n.toNat_lt
  cases c with
  | normal i =>
    have hi : i.toNat < 2 ^ 63 := hc
    rw [value_normal hi]
    unfold saturatingSub
    simp only
    cases h : U64.checkedSub i n with
    | some res =>
      have hres := U64.toNat_checkedSub h
      have hlt : res.toNat < 2 ^ 63 := by omega
      refine iff_of_true ⟨hlt, (value_normal hlt).trans ?_⟩ ?_
      · unfold clamp
        omega
      · omega
    | none =>
      have hlt := U64.checkedSub_eq_none.mp h
      have hdiff := U64.toNat_saturatingSub n i
      show (I64.saturatingSub 0 _).toInt ≤ 0 ∧ (I64.saturatingSub 0 _).toInt = _ ↔ _
      rw [I64.toInt_saturatingSub, I64.toInt_toInt64, hdiff, show (0 : Int64).toInt = 0 from rfl]
      unfold clamp
      split <;> omega
  | backfilled i =>
    have hi : i.toInt ≤ 0 := hc
    have hlow := (I64.inRange i).1
    show (I64.saturatingSub i _).toInt ≤ 0 ∧ (I64.saturatingSub i _).toInt = clamp (i.toInt - n.toNat) ↔
      (n.toNat : Int) < 2 ^ 63 + Max.max i.toInt 0
    rw [I64.toInt_saturatingSub, I64.toInt_toInt64]
    unfold clamp
    split <;> omega

theorem checkedAdd_iff : ChecksTo (c.checkedAdd n) (c.value + n.toNat) ↔ c.AddChecks n := by
  have hn := n.toNat_lt
  cases c with
  | normal i =>
    have hi : i.toNat < 2 ^ 63 := hc
    rw [value_normal hi]
    unfold checkedAdd AddChecks
    simp only
    cases h : U64.checkedAdd i n with
    | some res =>
      have hres := U64.toNat_checkedAdd h
      have hlt := res.toNat_lt
      show res.toNat < 2 ^ 63 ∧ res.toInt64.toInt = _ ↔ _
      rw [I64.toInt_toInt64]
      split <;> omega
    | none =>
      have hge := U64.checkedAdd_eq_none.mp h
      show ¬InRange _ ↔ _
      unfold InRange
      omega
  | backfilled i =>
    have hi : i.toInt ≤ 0 := hc
    have hlow := (I64.inRange i).1
    unfold checkedAdd AddChecks I64.checkedAdd
    have hcast := I64.toInt_toInt64 n
    by_cases h : InRange (i.toInt + n.toInt64.toInt)
    · simp only [if_pos h]
      show (Int64.ofInt _).toInt ≤ 0 ∧ (Int64.ofInt _).toInt = i.toInt + n.toNat ↔ _
      rw [I64.toInt_ofInt h]
      split at hcast <;> omega
    · simp only [if_neg h]
      show ¬InRange (i.toInt + n.toNat) ↔ _
      unfold InRange at h ⊢
      split at hcast <;> omega

theorem checkedSub_iff : ChecksTo (c.checkedSub n) (c.value - n.toNat) ↔ c.SubChecks n := by
  have hn := n.toNat_lt
  cases c with
  | normal i =>
    have hi : i.toNat < 2 ^ 63 := hc
    rw [value_normal hi]
    unfold checkedSub SubChecks
    simp only
    cases h : U64.checkedSub i n with
    | some res =>
      have hres := U64.toNat_checkedSub h
      have hlt : res.toNat < 2 ^ 63 := by omega
      refine iff_of_true ⟨hlt, (value_normal hlt).trans ?_⟩ ?_ <;> omega
    | none =>
      have hlt := U64.checkedSub_eq_none.mp h
      show ¬InRange _ ↔ _
      unfold InRange
      omega
  | backfilled i =>
    have hi : i.toInt ≤ 0 := hc
    have hlow := (I64.inRange i).1
    unfold checkedSub SubChecks I64.checkedSub
    have hcast := I64.toInt_toInt64 n
    by_cases h : InRange (i.toInt - n.toInt64.toInt)
    · simp only [if_pos h]
      show (Int64.ofInt _).toInt ≤ 0 ∧ (Int64.ofInt _).toInt = i.toInt - n.toNat ↔ _
      rw [I64.toInt_ofInt h]
      split at hcast <;> omega
    · simp only [if_neg h]
      show ¬InRange (i.toInt - n.toNat) ↔ _
      unfold InRange at h ⊢
      split at hcast <;> omega

end

def moved (c : Count) : Direction → Int
  | .forward => c.value + 1
  | .backward => c.value - 1

theorem saturatingInc_is {c : Count} (hc : c.Valid) (dir : Direction) :
    (c.saturatingInc dir).Is (clamp (c.moved dir)) := by
  cases dir with
  | forward => exact (saturatingAdd_iff hc 1).mpr (Or.inl (by decide))
  | backward =>
    refine (saturatingSub_iff hc 1).mpr ?_
    unfold SubSaturates
    show (1 : Int) < _
    omega

/-- Saturating steps by one are exact. Where the other steps are. -/
theorem count_arithmetic_iff (c : Count) (hc : c.Valid) (n : UInt64) (dir : Direction) :
    ((c.saturatingAdd n).Is (clamp (c.value + n.toNat)) ↔ c.AddSaturates n) ∧
      ((c.saturatingSub n).Is (clamp (c.value - n.toNat)) ↔ c.SubSaturates n) ∧
      (c.saturatingInc dir).Is (clamp (c.moved dir)) ∧
      (ChecksTo (c.checkedAdd n) (c.value + n.toNat) ↔ c.AddChecks n) ∧
      (ChecksTo (c.checkedSub n) (c.value - n.toNat) ↔ c.SubChecks n) ∧
      (ChecksTo (c.checkedInc dir) (c.moved dir) ↔ c.IncChecks dir) := by
  refine ⟨saturatingAdd_iff hc n, saturatingSub_iff hc n, saturatingInc_is hc dir, checkedAdd_iff hc n,
    checkedSub_iff hc n, ?_⟩
  cases dir with
  | forward => exact checkedAdd_iff hc 1
  | backward => exact checkedSub_iff hc 1

theorem count_arithmetic_small :
    ((normal 5).saturatingSub 7).Is (-2) ∧ ChecksTo ((normal 5).checkedAdd 7) 12 ∧
      ChecksTo ((normal 5).checkedInc .backward) 4 := by
  obtain ⟨-, hsub, -, hadd, -, hinc⟩ := count_arithmetic_iff (.normal 5) (by decide) 7 .backward
  exact ⟨hsub.mpr (by unfold SubSaturates; decide), hadd.mpr (Or.inl (by decide)), hinc.mpr (Or.inl (by decide))⟩

/-- A step past zero keeps the variant, and an amount past the signed words wraps around. -/
theorem count_steps_wrap : (backfilled 0).Valid ∧
    (backfilled 0).checkedInc .forward = .ok (.backfilled 1) ∧ ¬(backfilled 1).Valid ∧
    (backfilled 0).saturatingSub 9223372036854775808 = .backfilled 9223372036854775807 ∧
    ¬((backfilled 0).saturatingSub 9223372036854775808).Is (clamp (0 - 9223372036854775808)) := by
  refine ⟨by decide, rfl, by decide, rfl, by decide⟩

end Count

abbrev ValidCount := { count : Count // count.Valid }

end Congruent
