import Mathlib.Data.Set.Basic

/-!
# Positions drawn from a counter, and what is published at them

A writer draws a position and publishes at it afterwards. Positions up to a bound that is
read while no writer holds one are settled: what is published at them stays.
-/

namespace Congruent

/-- A counter, the positions that writers hold, and what is published at each position. -/
structure Board (T : Type) where
  counter : Nat
  held : Set Nat
  shown : Nat → T

namespace Board

variable {T : Type} {b b' : Board T} {u p : Nat}

/-- A step may draw positions, and change what is published at positions held. -/
structure Step (b b' : Board T) : Prop where
  counter_le : b.counter ≤ b'.counter
  held : ∀ p ∈ b'.held, p ∈ b.held ∨ b.counter < p
  shown : ∀ p, p ≤ b.counter → p ∉ b.held → b'.shown p = b.shown p

/-- The counter has passed the positions up to the bound, and nobody holds one of them. -/
structure Settled (b : Board T) (u : Nat) : Prop where
  le : u ≤ b.counter
  free : ∀ p ∈ b.held, u < p

theorem Step.refl (b : Board T) : b.Step b := ⟨Nat.le_refl _, fun _ h => .inl h, fun _ _ _ => rfl⟩

theorem settled_counter (h : b.held = ∅) : b.Settled b.counter :=
  ⟨Nat.le_refl _, fun p hp => by simp [h] at hp⟩

theorem Settled.mono (h : b.Settled u) {v : Nat} (hv : v ≤ u) : b.Settled v :=
  ⟨hv.trans h.le, fun p hp => hv.trans_lt (h.free p hp)⟩

theorem Settled.step (h : b.Settled u) (hs : b.Step b') : b'.Settled u := by
  refine ⟨h.le.trans hs.counter_le, fun p hp => ?_⟩
  rcases hs.held p hp with hold | hnew
  · exact h.free p hold
  · exact h.le.trans_lt hnew

theorem Settled.shown_step (h : b.Settled u) (hs : b.Step b') (hp : p ≤ u) : b'.shown p = b.shown p :=
  hs.shown p (hp.trans h.le) fun hheld => absurd (h.free p hheld) (Nat.not_lt.mpr hp)

end Board

end Congruent
