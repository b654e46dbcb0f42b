import Congruent.ReconcileQueue

/-!
# One call and the entry of a pair

What a call to the queue leaves of the entry of one pair, other than the calls that take it,
end its exchange or evict it.
-/

namespace Congruent.Reconcile

def Entry.triggered (e : Entry) (reason : Reason) (now : Instant) : Entry :=
  let noticed := e.noticed reason
  if e.inFlight then
    if reason ≠ .periodic then { noticed with dirty := true, reason := reason } else noticed
  else if e.queued then
    if reason ≠ .periodic then { noticed with reason := reason } else noticed
  else if reason ≠ .explicit && noticed.waiting now then noticed
  else { noticed.overridden reason with queued := true, reason := reason }

namespace Queue

def Takes (limits : Limits) (k : Key) (a : Action) (q : Queue) : Prop :=
  match a with
  | .nextReady now periodicAllowed =>
    (q.nextReady now limits.maxConcurrent limits.maxPerPeer periodicAllowed).1.any (·.1 = k) = true
  | _ => False

/-- An enqueue that drops the idle pair `k` to make room. -/
def Evicts (k : Key) (a : Action) (q : Queue) : Prop :=
  match a with
  | .enqueue key _ now =>
    q.entries.lookup key = none ∧ q.maxTracked ≤ q.entries.entries.length ∧ q.victim now = some k
  | _ => False

/-- The exchange of `k` ends. -/
def Finishes (k : Key) (a : Action) : Prop :=
  match a with
  | .finish key _ _ => key = k
  | _ => False

instance (limits : Limits) (k : Key) : ∀ (a : Action) (q : Queue), Decidable (Takes limits k a q)
  | .nextReady now periodicAllowed, q => inferInstanceAs (Decidable
      ((q.nextReady now limits.maxConcurrent limits.maxPerPeer periodicAllowed).1.any (·.1 = k) = true))
  | .enqueue .., _ | .finish .., _ | .requeueDueRetries _, _ | .peerReachable _, _ | .resetSynchronizedForRoom _, _
  | .rehash _, _ => .isFalse id

instance (k : Key) : ∀ (a : Action) (q : Queue), Decidable (Evicts k a q)
  | .enqueue key _ now, q => inferInstanceAs (Decidable
      (q.entries.lookup key = none ∧ q.maxTracked ≤ q.entries.entries.length ∧ q.victim now = some k))
  | .nextReady .., _ | .finish .., _ | .requeueDueRetries _, _ | .peerReachable _,
      _ | .resetSynchronizedForRoom _, _
  | .rehash _, _ => .isFalse id

/-- The entry of `k` after a call that neither takes nor evicts the pair nor ends its exchange. -/
def after (k : Key) (a : Action) (e : Entry) : Entry :=
  match a with
  | .enqueue key reason now => if k = key then e.triggered reason now else e
  | .requeueDueRetries now =>
    if due now e then { e with retryPending := false, queued := true, reason := .periodic } else e
  | .peerReachable key => if k = key then { e with failures := 0, notBefore := none } else e
  | .resetSynchronizedForRoom room =>
    if k.roomId = room then { e with identicalDigests := 0, synchronizedUntil := none } else e
  | .nextReady .. | .finish .. | .rehash _ => e

section
variable {limits : Limits} {q q' : Queue} {k key : Key} {e : Entry} {reason : Reason} {now : Instant}

theorem enqueueTracked_lookup (he : q.entries.lookup key = some e) (k : Key) :
    (q.enqueueTracked key e reason now).2.entries.lookup k =
      if k = key then some (e.triggered reason now) else q.entries.lookup k := by
  unfold enqueueTracked Entry.triggered
  simp only
  split
  · exact lookup_adjust_const he _ k
  · split
    · exact lookup_adjust_const he _ k
    · split
      · exact lookup_adjust_const he _ k
      · exact lookup_adjust_const he _ k

theorem enqueue_lookup (he : q.entries.lookup k = some e) (hnot : ¬Evicts k (.enqueue key reason now) q) :
    (q.enqueue key reason now).2.entries.lookup k = some (after k (.enqueue key reason now) e) := by
  unfold enqueue
  split
  · rename_i e' he'
    rw [enqueueTracked_lookup he']
    simp only [after]
    by_cases hk : k = key
    · subst hk
      rw [he, Option.some.injEq] at he'
      rw [if_pos rfl, if_pos rfl, he']
    · rw [if_neg hk, if_neg hk, he]
  · rename_i hnone
    have hk : k ≠ key := by
      rintro rfl
      rw [hnone] at he
      cases he
    have hafter : after k (.enqueue key reason now) e = e := if_neg hk
    rw [hafter]
    have htrack : ∀ q₁ : Queue, q₁.entries.lookup k = some e → (q₁.track key reason).entries.lookup k = some e :=
      fun q₁ h₁ => (AList.lookup_insert_ne hk).trans h₁
    split
    · rename_i hfull
      have hkept : (q.evictIdle now).2.entries.lookup k = some e := by
        unfold evictIdle
        split
        · rename_i v hv
          have hkv : k ≠ v := by
            rintro rfl
            exact hnot ⟨hnone, hfull, hv⟩
          exact (AList.lookup_erase_ne hkv).trans he
        · exact he
      split
      · rename_i q₁ hq₁
        rw [hq₁] at hkept
        exact htrack q₁ hkept
      · rename_i q₁ hq₁
        rw [hq₁] at hkept
        exact hkept
    · exact htrack q he

theorem nextReady_lookup {maxConcurrent maxPerPeer : Nat} {periodicAllowed : Bool}
    (hnot : ¬(q.nextReady now maxConcurrent maxPerPeer periodicAllowed).1.any (·.1 = k) = true) :
    (q.nextReady now maxConcurrent maxPerPeer periodicAllowed).2.entries.lookup k = q.entries.lookup k := by
  revert hnot
  unfold nextReady
  split
  · exact fun _ => rfl
  · split
    · exact fun _ => rfl
    · rename_i index _
      cases hkey : q.ready[index]? with
      | none => exact fun _ => rfl
      | some key =>
        simp only
        cases he' : q.entries.lookup key with
        | none => exact fun _ => rfl
        | some e' =>
          intro hnot
          have hk : k ≠ key := fun hk => hnot (by simpa using hk.symm)
          show (q.entries.adjust key taken).lookup k = q.entries.lookup k
          rw [AList.lookup_adjust, if_neg hk]

theorem finish_lookup {verdict : Verdict} (hk : k ≠ key) :
    (q.finish key verdict now).2.entries.lookup k = q.entries.lookup k := by
  have hadjust : ∀ f, (q.entries.adjust key f).lookup k = q.entries.lookup k := by
    intro f
    rw [AList.lookup_adjust, if_neg hk]
  unfold finish
  split
  · exact AList.lookup_erase_ne hk
  · split
    · rfl
    · simp only
      split
      · apply hadjust
      · split
        · apply hadjust
        · split
          · exact AList.lookup_erase_ne hk
          · apply hadjust

theorem step_lookup {a : Action} (he : q.entries.lookup k = some e) (htakes : ¬Takes limits k a q)
    (hevicts : ¬Evicts k a q) (hfinishes : ¬Finishes k a) (hs : q.step limits a = some q') :
    q'.entries.lookup k = some (after k a e) := by
  cases a with
  | enqueue key reason now =>
    cases hs
    exact enqueue_lookup he hevicts
  | nextReady now periodicAllowed =>
    cases hs
    exact (nextReady_lookup htakes).trans he
  | finish key verdict now =>
    cases hs
    exact (finish_lookup (Ne.symm hfinishes)).trans he
  | requeueDueRetries now =>
    cases hs
    show (q.entries.mapValues _).lookup k = _
    rw [AList.lookup_mapValues, he]
    rfl
  | peerReachable key =>
    cases hs
    show (q.entries.adjust key _).lookup k = _
    rw [AList.lookup_adjust]
    simp only [after]
    split
    · rename_i hk
      rw [← hk, he]
      rfl
    · exact he
  | resetSynchronizedForRoom room =>
    cases hs
    show (q.entries.mapValues _).lookup k = _
    rw [AList.lookup_mapValues, he]
    rfl
  | rehash entries =>
    simp only [step] at hs
    split at hs
    · rename_i hp
      cases hs
      exact (AList.perm_lookup hp).trans he
    · cases hs

end

end Queue

end Congruent.Reconcile
