import Congruent.Triggers

/-!
# Retries of the reconciliation queue

A pair whose exchange failed keeps its retry through all calls but those that take it, evict
it or drop it, and only a pair that waits for nothing is taken.
-/

namespace Congruent.Reconcile

def Entry.Retries (e : Entry) : Prop := e.inFlight = false ∧ (e.retryPending = true ∨ e.queued = true)

namespace Queue

def pendingRetry (q : Queue) (k : Key) : Bool := (q.entries.lookup k).any fun e => e.retryPending || e.queued

/-- A call that neither takes nor evicts nor drops the pair. -/
def Stays (limits : Limits) (k : Key) (a : Action) (q : Queue) : Prop :=
  Ends a q ∧ ¬Takes limits k a q ∧ ¬Evicts k a q ∧ ¬Drops k a

instance (limits : Limits) (k : Key) (a : Action) (q : Queue) : Decidable (Stays limits k a q) :=
  inferInstanceAs (Decidable (_ ∧ _))

section
variable {limits : Limits} {q q' : Queue} {k : Key} {e : Entry} {now : Instant}

theorem triggered_retries (h : e.Retries) (reason : Reason) (now : Instant) : (e.triggered reason now).Retries := by
  obtain ⟨hidle, hpending⟩ := h
  obtain ⟨hq, hf⟩ := noticed_flags (e := e) reason
  have hkept : (e.noticed reason).Retries := by
    refine ⟨hf.trans hidle, hpending.imp (fun hp => ?_) hq.trans⟩
    unfold Entry.noticed
    split <;> exact hp
  unfold Entry.triggered
  simp only
  rw [if_neg (by simp [hidle])]
  split
  · split
    · exact hkept
    · exact hkept
  · split
    · exact hkept
    · exact ⟨(overridden_flags reason).2.trans (hf.trans hidle), .inr rfl⟩

theorem after_retries (h : e.Retries) (a : Action) : (after k a e).Retries := by
  cases a with
  | enqueue key reason now =>
    simp only [after]
    split
    · exact triggered_retries h reason now
    · exact h
  | requeueDueRetries now =>
    simp only [after]
    split
    · exact ⟨h.1, .inr rfl⟩
    · exact h
  | peerReachable key =>
    simp only [after]
    split <;> exact h
  | resetSynchronizedForRoom room =>
    simp only [after]
    split <;> exact h
  | nextReady now periodicAllowed => exact h
  | finish key verdict now => exact h
  | rehash entries => exact h

theorem step_retries {a : Action} (h : ∃ e, q.entries.lookup k = some e ∧ e.Retries) (hok : Stays limits k a q)
    (hs : q.step limits a = some q') : ∃ e, q'.entries.lookup k = some e ∧ e.Retries := by
  obtain ⟨e, he, hr⟩ := h
  obtain ⟨hends, htakes, hevicts, -⟩ := hok
  have hfinishes : ¬Finishes k a := by
    cases a with
    | finish key verdict now =>
      rintro rfl
      rw [Ends, he, Option.any_some, hr.1] at hends
      cases hends
    | _ => exact id
  exact ⟨_, step_lookup he htakes hevicts hfinishes hs, after_retries hr a⟩

theorem ended_failed (e : Entry) (base limit : Duration) (now : Instant) :
    (e.ended base limit .failed now).inFlight = false ∧ (e.ended base limit .failed now).retryPending = true ∧
      (e.ended base limit .failed now).failures ≠ 0 := by
  refine ⟨rfl, rfl, ?_⟩
  show U32.saturatingAdd e.failures 1 ≠ 0
  unfold U32.saturatingAdd U32.max
  omega

theorem finish_failed (he : q.entries.lookup k = some e) :
    ∃ e', (q.finish k .failed now).2.entries.lookup k = some e' ∧ e'.Retries := by
  have hadjust : ∀ e' : Entry, (q.entries.adjust k fun _ => e').lookup k = some e' :=
    fun e' => (lookup_adjust_const he e' k).trans (if_pos rfl)
  obtain ⟨hf, hp, hne⟩ := ended_failed e q.failureBackoff q.failureBackoffMax now
  unfold finish
  rw [if_neg (by decide), he]
  simp only
  rw [if_neg (by decide)]
  split
  · exact ⟨_, hadjust _, (overridden_flags _).2.trans hf, .inr rfl⟩
  · rw [if_neg (fun h => hne h.1)]
    exact ⟨_, hadjust _, hf, .inl hp⟩

theorem nextReady_taken {maxConcurrent maxPerPeer : Nat} {periodicAllowed : Bool} {reason : Reason}
    (h : (q.nextReady now maxConcurrent maxPerPeer periodicAllowed).1 = some (k, reason)) :
    k ∈ q.ready ∧ ∃ e, q.entries.lookup k = some e ∧ e.waiting now = false := by
  unfold nextReady at h
  split at h
  · cases h
  · split at h
    · cases h
    · rename_i index hfind
      obtain ⟨priority, -, hp⟩ := List.exists_of_findSome?_eq_some hfind
      obtain ⟨hlt, hel, -⟩ := List.findIdx?_eq_some_iff_getElem.mp hp
      rw [List.getElem?_eq_getElem hlt] at h
      simp only at h
      unfold eligible at hel
      split at hel
      · cases hel
      · rename_i e he
        rw [he] at h
        obtain ⟨rfl, -⟩ := Prod.mk.inj (Option.some.inj h)
        simp only [Bool.and_eq_true, Bool.not_eq_true'] at hel
        exact ⟨List.getElem_mem hlt, e, he, hel.2⟩

end

/-- After a failed exchange the pair has a retry pending or is queued, through every run until it is
taken, evicted or dropped; and no pair is taken before its times. -/
theorem failed_pairs_retried (limits : Limits) (q : Queue) :
    (∀ k now, k ∈ q.entries → ∀ q',
      Reaches (fun a q => q.step limits a) (Stays limits k) (q.finish k .failed now).2 q' →
        q'.pendingRetry k = true) ∧
      ∀ now maxConcurrent maxPerPeer periodicAllowed k reason,
        (q.nextReady now maxConcurrent maxPerPeer periodicAllowed).1 = some (k, reason) →
          ∃ e, q.entries.lookup k = some e ∧ e.waiting now = false := by
  refine ⟨fun k now hk q' hrun => ?_, fun _ _ _ _ k reason h => (nextReady_taken h).2⟩
  obtain ⟨e, he⟩ := Option.isSome_iff_exists.mp (AList.lookup_isSome.mpr hk)
  obtain ⟨e', he', -, hpending⟩ := Reaches.invariant (P := fun q => ∃ e, q.entries.lookup k = some e ∧ e.Retries)
    (finish_failed he) (fun _ _ _ h hok hs => step_retries h hok hs) hrun
  unfold pendingRetry
  rw [he', Option.any_some, Bool.or_eq_true]
  exact hpending

/-- The retry outlives a refused trigger, a trigger for another pair and the peer's call. -/
theorem failed_pairs_retried_refused :
    let limits : Limits := ⟨1, 1, 2⟩
    let k : Key := ⟨"!r:a", "b"⟩
    ∃ q q', runWhile (fun a q => step limits a q) Ends [.enqueue k .periodic 0, .nextReady 0 true]
        ((Queue.new limits.maxTracked).withFailureBackoff backoffBase backoffMax) = some q ∧
      runWhile (fun a q => step limits a q) (Stays limits k)
        [.enqueue k .activity 2, .enqueue ⟨"!s:a", "b"⟩ .explicit 2, .peerReachable k, .requeueDueRetries 3]
        (q.finish k .failed 1).2 = some q' ∧
      q'.pendingRetry k = true ∧
      ∃ e, q.entries.lookup k = some e ∧ e.inFlight = true := by
  intro limits k
  have hsome : ((runWhile (fun a q => step limits a q) Ends [.enqueue k .periodic 0, .nextReady 0 true]
      ((Queue.new limits.maxTracked).withFailureBackoff backoffBase backoffMax)).bind fun q =>
        (runWhile (fun a q => step limits a q) (Stays limits k)
          [.enqueue k .activity 2, .enqueue ⟨"!s:a", "b"⟩ .explicit 2, .peerReachable k, .requeueDueRetries 3]
          (q.finish k .failed 1).2).map fun _ => (q.entries.lookup k).any (·.inFlight)) = some true := by
    decide
  obtain ⟨q, hq, hrest⟩ := Option.bind_eq_some_iff.mp hsome
  obtain ⟨q', hq', hflight⟩ := Option.map_eq_some_iff.mp hrest
  obtain ⟨e, he, hrunning⟩ := (Option.any_eq_true ..).mp hflight
  have hk : k ∈ q.entries := AList.lookup_isSome.mp (by rw [he]; rfl)
  have hpending := (failed_pairs_retried limits q).1 k 1 hk q' (Reaches.of_runWhile _ .init hq')
  exact ⟨q, q', hq, hq', hpending, e, he, hrunning⟩

end Queue

end Congruent.Reconcile
