import Congruent.StateAtEvent

/-!
# Rejected predecessors

A rejected event changes no state. Before an event whose only predecessor is rejected,
the walk goes back to an event with a root and takes the state after that event, whether
or not it is rejected itself.
-/

namespace Congruent

open H

section
variable (plat : Platform) (room : RoomId) (s : Server)

/-- A chain of single predecessors that are rejected, down to one that is not. -/
inductive RejectedTo : EventId → List EventId → EventId → Prop
  | accepted {a : EventId} (hpdu : (s.getPduInRoom plat room a).isSome) (hroot : (s.eventRoot a).isSome)
      (h : s.isEventRejected a = false) : RejectedTo a [] a
  | rejected {p q a : EventId} {ps : List EventId} {pdu : Pdu} (hpdu : s.getPduInRoom plat room p = some pdu)
      (h : s.isEventRejected p = true) (hprev : pdu.prevEvents = [q]) (hrest : RejectedTo q ps a) :
      RejectedTo p (p :: ps) a

/-- The rejected event at which the walk stops. -/
def firstRooted (ps : List EventId) : Option EventId := ps.find? fun q => (s.eventRoot q).isSome

def RootIs (root state : Root) (pdu : Pdu) : Prop :=
  match pdu.stateKey with
  | none => SameMap root state
  | some key => state.lookup (pdu.kind, key) = some pdu.eventId ∧
      ∀ k, k ≠ (pdu.kind, key) → root.lookup k = state.lookup k

def RecordedAs (state : Root) (q : EventId) : Prop :=
  ∃ pdu root, s.getPduInRoom plat room q = some pdu ∧ s.eventRoot q = some root ∧ RootIs root state pdu

def NamesRoom (p : EventId) : Prop := ∃ pdu, s.getPduInRoom plat room p = some pdu ∧ pdu.roomId = some room

end

theorem rootIs_iff (root state : Root) (pdu : Pdu) :
    SameMap (stateAtIncomingFork root pdu) state ↔ RootIs root state pdu := by
  unfold stateAtIncomingFork RootIs
  cases pdu.stateKey with
  | none => exact Iff.rfl
  | some key =>
    constructor
    · intro h
      constructor
      · rw [← h (pdu.kind, key)]
        exact AList.lookup_insert root
      · intro k hk
        rw [← h k]
        exact (AList.lookup_insert_ne hk).symm
    · rintro ⟨hown, hrest⟩ k
      by_cases hk : k = (pdu.kind, key)
      · subst hk
        rw [hown]
        exact AList.lookup_insert root
      · rw [← hrest k hk]
        exact AList.lookup_insert_ne hk

section
variable {plat : Platform} {room : RoomId} {s : Server} {p a : EventId} {ps : List EventId} {n : Nat}

theorem RejectedTo.pdu (h : RejectedTo plat room s p ps a) : ∃ pdu, s.getPduInRoom plat room p = some pdu := by
  cases h with
  | accepted hpdu => exact Option.isSome_iff_exists.1 hpdu
  | rejected hpdu => exact ⟨_, hpdu⟩

theorem RejectedTo.walkBack (h : RejectedTo plat room s p ps a) (hn : ps.length < n) {pdu : Pdu}
    (hp : s.getPduInRoom plat room p = some pdu) :
    ∃ root stop, s.getPduInRoom plat room ((firstRooted s ps).getD a) = some stop ∧
      s.eventRoot ((firstRooted s ps).getD a) = some root ∧
      (walkBack plat room n p pdu).exec s = (.ok (some (root, stop)), s) := by
  induction h generalizing n pdu with
  | accepted hpdu hroot h =>
    obtain ⟨root, hr⟩ := Option.isSome_iff_exists.1 hroot
    refine ⟨root, pdu, hp, hr, ?_⟩
    obtain ⟨n, rfl⟩ : ∃ m, n = m + 1 := ⟨n - 1, by omega⟩
    unfold Congruent.walkBack
    rw [exec_read, hr]
    rfl
  | @rejected p q a ps pdu' hpdu h hprev hrest ih =>
    obtain ⟨n, rfl⟩ : ∃ m, n = m + 1 := ⟨n - 1, by omega⟩
    obtain rfl : pdu' = pdu := Option.some.inj (hpdu.symm.trans hp)
    cases hr : s.eventRoot p with
    | some root =>
      have hfirst : firstRooted s (p :: ps) = some p := List.find?_cons_of_pos (by simp [hr])
      rw [hfirst]
      refine ⟨root, pdu', hp, hr, ?_⟩
      unfold Congruent.walkBack
      rw [exec_read, hr]
      rfl
    | none =>
      have hfirst : firstRooted s (p :: ps) = firstRooted s ps := List.find?_cons_of_neg (by simp [hr])
      rw [hfirst]
      obtain ⟨parent, hparent⟩ := hrest.pdu
      obtain ⟨root, stop, hstop, hroot, hwalk⟩ := ih (n := n) (by simpa using hn) hparent
      refine ⟨root, stop, hstop, hroot, ?_⟩
      unfold Congruent.walkBack
      rw [exec_read, hr]
      simp only
      rw [exec_read, h, hprev]
      simp only [Bool.not_true, Bool.false_eq_true, if_false]
      rw [exec_read, hparent]
      exact hwalk

theorem RejectedTo.degreeOne (h : RejectedTo plat room s p ps a) (hn : ps.length < n)
    (hroom : NamesRoom plat room s p) :
    (stateAtIncomingDegreeOne plat n room p).exec s =
      (.ok (some (forkAfter plat room s s.eventRoot ((firstRooted s ps).getD a))), s) := by
  obtain ⟨pdu, hpdu, hroom⟩ := hroom
  obtain ⟨root, stop, hstop, hroot, hwalk⟩ := h.walkBack hn hpdu
  unfold stateAtIncomingDegreeOne
  rw [exec_read, hpdu]
  simp only [hroom, ne_eq, not_true_eq_false, if_false]
  rw [Call.exec_bind, hwalk, forkAfter_eq hstop hroot]
  rfl

theorem RejectedTo.degreeOne_foreign (h : RejectedTo plat room s p ps a) (hroom : ¬ NamesRoom plat room s p) :
    (stateAtIncomingDegreeOne plat n room p).exec s =
      (.error (.database "prev_event is not in the same room"), s) := by
  obtain ⟨pdu, hpdu⟩ := h.pdu
  have hne : pdu.roomId ≠ some room := fun heq => hroom ⟨pdu, hpdu, heq⟩
  unfold stateAtIncomingDegreeOne
  rw [exec_read, hpdu]
  simp only [ne_eq, hne, not_false_eq_true, if_true]
  rfl

theorem recordedAs_iff {q : EventId} (state : Root) (hq : (s.getPduInRoom plat room q).isSome)
    (hr : (s.eventRoot q).isSome) :
    SameMap (forkAfter plat room s s.eventRoot q) state ↔ RecordedAs plat room s state q := by
  obtain ⟨pdu, hpdu⟩ := Option.isSome_iff_exists.1 hq
  obtain ⟨root, hroot⟩ := Option.isSome_iff_exists.1 hr
  rw [forkAfter_eq hpdu hroot, rootIs_iff]
  constructor
  · intro h
    exact ⟨pdu, root, hpdu, hroot, h⟩
  · rintro ⟨pdu', root', hpdu', hroot', h⟩
    rw [hpdu] at hpdu'
    rw [hroot] at hroot'
    cases hpdu'
    cases hroot'
    exact h

/-- Before an event whose chain of single predecessors is rejected down to `a`, the state is
the one after `a` exactly when no rejected event of the chain has a root, or the root of the
first that has one is that state already; and a fork keeps the entry of its event out exactly
when the event has none or the root has it. -/
theorem rejected_predecessors (h : RejectedTo plat room s p ps a) (hn : ps.length < n) (root : Root) (prev : Pdu) :
    ((∃ state s', (stateAtIncomingDegreeOne plat n room p).exec s = (.ok (some state), s') ∧
        SameMap state (forkAfter plat room s s.eventRoot a)) ↔
      NamesRoom plat room s p ∧
        ∀ q, firstRooted s ps = some q → RecordedAs plat room s (forkAfter plat room s s.eventRoot a) q) ∧
    (SameMap (stateAtIncomingFork root prev) root ↔ RootIs root root prev) := by
  refine ⟨?_, rootIs_iff root root prev⟩
  by_cases hroom : NamesRoom plat room s p
  · rw [h.degreeOne hn hroom]
    obtain ⟨pdu, hpdu⟩ := h.pdu
    obtain ⟨root, stop, hstop, hroot, -⟩ := h.walkBack hn hpdu
    have hrecorded := recordedAs_iff (forkAfter plat room s s.eventRoot a) (Option.isSome_of_eq_some hstop)
      (Option.isSome_of_eq_some hroot)
    constructor
    · rintro ⟨state, s', heq, hsame⟩
      cases heq
      refine ⟨hroom, fun q hq => ?_⟩
      rw [hq] at hrecorded hsame
      exact hrecorded.1 hsame
    · rintro ⟨-, hfirst⟩
      refine ⟨_, s, rfl, ?_⟩
      cases hq : firstRooted s ps with
      | none => exact .refl _
      | some q =>
        rw [hq] at hrecorded
        exact hrecorded.2 (hfirst q hq)
  · rw [h.degreeOne_foreign hroom]
    constructor
    · rintro ⟨state, s', heq, -⟩
      cases heq
    · rintro ⟨hin, -⟩
      exact absurd hin hroom

end

/-! ## A rejected event with a root -/

/-- The room with the outlier `$a` rejected. -/
def Server.rejectedOutlier (root : Option Root) : Server :=
  { Server.withOutliers with
    rejection := fun id => if id = "$a" then some .authCheckFailed else none
    eventRoot := fun id => if id = "$a" then root else Server.withOutliers.eventRoot id }

theorem rejectedOutlier_chain (root : Option Root) :
    RejectedTo .union "!r:a" (Server.rejectedOutlier root) "$a" ["$a"] "$j" := by
  have hprev : (Server.withOutliers.getPduInRoom .union "!r:a" "$a").map (·.prevEvents) = some ["$j"] := by
    decide
  obtain ⟨pdu, hpdu, hprev⟩ := Option.map_eq_some_iff.1 hprev
  have hjoin : (Server.withOutliers.getPduInRoom .union "!r:a" "$j").isSome = true := by decide
  exact .rejected hpdu rfl hprev (.accepted hjoin rfl rfl)

theorem rejectedOutlier_namesRoom (root : Option Root) : NamesRoom .union "!r:a"
    (Server.rejectedOutlier root) "$a" := by
  have hroom : (Server.withOutliers.getPduInRoom .union "!r:a" "$a").map (·.roomId) = some (some "!r:a") := by
    decide
  exact Option.map_eq_some_iff.1 hroom

theorem rejected_predecessors_rootless :
    ∃ state s', (stateAtIncomingDegreeOne .union 2 "!r:a" "$a").exec (Server.rejectedOutlier none) =
        (.ok (some state), s') ∧
      SameMap state (forkAfter .union "!r:a" (Server.rejectedOutlier none)
        (Server.rejectedOutlier none).eventRoot "$j") :=
  ((rejected_predecessors (n := 2) (rejectedOutlier_chain none) (by decide) ∅ emptyPdu).1).2
    ⟨rejectedOutlier_namesRoom none, fun q hq => by cases hq⟩

/-- A rejected event whose root was stored leaves its own entry in the state before the next. -/
theorem rejected_entry_kept :
    ¬ ∀ (plat : Platform) (room : RoomId) (s : Server) (p a : EventId) (ps : List EventId) (n : Nat),
      RejectedTo plat room s p ps a → ps.length < n → NamesRoom plat room s p →
      ∃ state s', (stateAtIncomingDegreeOne plat n room p).exec s = (.ok (some state), s') ∧
        SameMap state (forkAfter plat room s s.eventRoot a) := by
  intro h
  let s := Server.rejectedOutlier (Server.withOutliers.eventRoot "$j")
  have hchain : RejectedTo .union "!r:a" s "$a" ["$a"] "$j" := rejectedOutlier_chain _
  have hroom : NamesRoom .union "!r:a" s "$a" := rejectedOutlier_namesRoom _
  obtain ⟨state, s', hexec, hsame⟩ := h .union "!r:a" s "$a" "$j" ["$a"] 2 hchain (by decide) hroom
  rw [hchain.degreeOne (by decide) hroom] at hexec
  cases hexec
  have hname : ¬ (forkAfter .union "!r:a" s s.eventRoot "$a").lookup (.other "m.room.name", "") =
      (forkAfter .union "!r:a" s s.eventRoot "$j").lookup (.other "m.room.name", "") := by decide
  exact hname (hsame _)

end Congruent
