import Mathlib.Order.Basic
import Mathlib.Order.Lattice
import Mathlib.Algebra.Order.Ring.Int

/-!
# Words of 64 bits

Checked and saturating arithmetic of unsigned and signed words, and the casts between
them, by the integers that the words stand for.
-/

namespace Words

/-- The integers that signed words stand for. -/
def InRange (n : Int) : Prop := -2 ^ 63 ≤ n ∧ n < 2 ^ 63

instance (n : Int) : Decidable (InRange n) := inferInstanceAs (Decidable (_ ∧ _))

def clamp (n : Int) : Int := max (-2 ^ 63) (min n (2 ^ 63 - 1))

theorem inRange_clamp (n : Int) : InRange (clamp n) := by
  unfold InRange clamp
  omega

/-! ## Unsigned words -/

namespace U64

def checkedAdd (a b : UInt64) : Option UInt64 := if a.toNat + b.toNat < 2 ^ 64 then some (a + b) else none

def checkedSub (a b : UInt64) : Option UInt64 := if b.toNat ≤ a.toNat then some (a - b) else none

def saturatingAdd (a b : UInt64) : UInt64 := (checkedAdd a b).getD 18446744073709551615

def saturatingSub (a b : UInt64) : UInt64 := (checkedSub a b).getD 0

theorem checkedAdd_eq_none {a b : UInt64} : checkedAdd a b = none ↔ 2 ^ 64 ≤ a.toNat + b.toNat := by
  unfold checkedAdd
  split <;> simp <;> omega

theorem toNat_checkedAdd {a b c : UInt64} (h : checkedAdd a b = some c) : c.toNat = a.toNat + b.toNat := by
  unfold checkedAdd at h
  split at h
  · cases h
    rw [UInt64.toNat_add]
    omega
  · cases h

theorem checkedSub_eq_none {a b : UInt64} : checkedSub a b = none ↔ a.toNat < b.toNat := by
  unfold checkedSub
  split <;> simp <;> omega

theorem toNat_checkedSub {a b c : UInt64} (h : checkedSub a b = some c) : c.toNat + b.toNat = a.toNat := by
  unfold checkedSub at h
  split at h
  · rename_i hle
    cases h
    rw [UInt64.toNat_sub_of_le a b (UInt64.le_iff_toNat_le.mpr hle)]
    omega
  · cases h

theorem toNat_saturatingAdd (a b : UInt64) : (saturatingAdd a b).toNat = min (a.toNat + b.toNat) (2 ^ 64 - 1) := by
  unfold saturatingAdd
  cases h : checkedAdd a b with
  | none =>
    have := checkedAdd_eq_none.mp h
    show 18446744073709551615 = _
    omega
  | some c =>
    have := toNat_checkedAdd h
    have := c.toNat_lt
    show c.toNat = _
    omega

theorem toNat_saturatingSub (a b : UInt64) : (saturatingSub a b).toNat = a.toNat - b.toNat := by
  unfold saturatingSub
  cases h : checkedSub a b with
  | none =>
    have := checkedSub_eq_none.mp h
    show 0 = _
    omega
  | some c =>
    have := toNat_checkedSub h
    show c.toNat = _
    omega

end U64

/-! ## Signed words -/

namespace I64

def unsignedAbs (a : Int64) : UInt64 := .ofNat a.toInt.natAbs

theorem inRange (a : Int64) : InRange a.toInt := ⟨a.le_toInt, a.toInt_lt⟩

theorem toInt_ofInt {n : Int} (h : InRange n) : (Int64.ofInt n).toInt = n := Int64.toInt_ofInt_of_le h.1 h.2

def checkedAdd (a b : Int64) : Option Int64 :=
  if InRange (a.toInt + b.toInt) then some (.ofInt (a.toInt + b.toInt)) else none

def checkedSub (a b : Int64) : Option Int64 :=
  if InRange (a.toInt - b.toInt) then some (.ofInt (a.toInt - b.toInt)) else none

def saturatingAdd (a b : Int64) : Int64 := .ofInt (clamp (a.toInt + b.toInt))

def saturatingSub (a b : Int64) : Int64 := .ofInt (clamp (a.toInt - b.toInt))

/-- `i64::try_from`. -/
def tryFrom (n : UInt64) : Option Int64 := if n.toNat < 2 ^ 63 then some n.toInt64 else none

theorem toInt_saturatingAdd (a b : Int64) : (saturatingAdd a b).toInt = clamp (a.toInt + b.toInt) :=
  toInt_ofInt (inRange_clamp _)

theorem toInt_saturatingSub (a b : Int64) : (saturatingSub a b).toInt = clamp (a.toInt - b.toInt) :=
  toInt_ofInt (inRange_clamp _)

theorem toInt_toInt64 (n : UInt64) :
    n.toInt64.toInt = if n.toNat < 2 ^ 63 then (n.toNat : Int) else n.toNat - 2 ^ 64 := by
  show n.toBitVec.toInt = _
  rw [BitVec.toInt_eq_toNat_cond]
  show (if 2 * n.toNat < 2 ^ 64 then (n.toNat : Int) else n.toNat - (2 ^ 64 : Nat)) = _
  split <;> split <;> omega

theorem toNat_toUInt64 (a : Int64) :
    (a.toUInt64.toNat : Int) = if 0 ≤ a.toInt then a.toInt else a.toInt + 2 ^ 64 := by
  have h := toInt_toInt64 a.toUInt64
  have hlt := a.toUInt64.toNat_lt
  have := inRange a
  unfold InRange at this
  rw [show a.toUInt64.toInt64 = a from rfl] at h
  split at h <;> split <;> omega

end I64

end Words
