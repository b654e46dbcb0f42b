import Congruent.EntryCalls

/-!
# Triggers of the reconciliation queue

What a trigger that is not refused leaves: a request, which stays until the pair is taken.
-/

namespace Congruent.Reconcile

def Entry.requested (e : Entry) : Bool := e.queued || e.inFlight && e.dirty

namespace Queue

def requested (q : Queue) (k : Key) : Bool := (q.entries.lookup k).any (·.requested)

/-- An exchange of the key ends with the outcome that drops the pair. -/
def Drops (k : Key) (a : Action) : Prop :=
  match a with
  | .finish key verdict _ => key = k ∧ verdict = .dropped
  | _ => False

instance (k : Key) : ∀ a : Action, Decidable (Drops k a)
  | .finish key verdict _ => inferInstanceAs (Decidable (key = k ∧ verdict = .dropped))
  | .enqueue .. | .nextReady .. | .requeueDueRetries _ | .peerReachable _ | .resetSynchronizedForRoom _
  | .rehash _ => .isFalse id

def Waits (limits : Limits) (k : Key) (a : Action) (q : Queue) : Prop :=
  Ends a q ∧ ¬ Takes limits k a q ∧ ¬ Drops k a

instance (limits : Limits) (k : Key) (a : Action) (q : Queue) : Decidable (Waits limits k a q) :=
  inferInstanceAs (Decidable (_ ∧ _))

section
variable {limits : Limits} {q q' : Queue} {k key : Key} {e : Entry} {reason : Reason} {now : Instant}

theorem requested_of_lookup (he : q.entries.lookup k = some e) : q.requested k = e.requested := by
  unfold requested
  rw [he]
  rfl

theorem requested_iff : q.requested k = true ↔
    q.isQueued k = true ∨ ∃ e, q.entries.lookup k = some e ∧ e.inFlight = true ∧ e.dirty = true := by
  unfold requested isQueued
  cases q.entries.lookup k with
  | none => simp
  | some e => simp [Entry.requested]

theorem Entry.busy_of_requested (h : e.requested = true) : e.queued = true ∨ e.inFlight = true := by
  unfold Entry.requested at h
  rw [Bool.or_eq_true, Bool.and_eq_true] at h
  exact h.imp_right And.left

/-! ## What a trigger leaves -/

theorem noticed_requested (reason : Reason) : (e.noticed reason).requested = e.requested := by
  unfold Entry.noticed
  split <;> rfl

theorem enqueueTracked_answer (he : q.entries.lookup key = some e) (hreason : reason ≠ .periodic)
    (h : ∀ r, (q.enqueueTracked key e reason now).1 ≠ .refused r) :
    (q.enqueueTracked key e reason now).2.requested key = true := by
  unfold enqueueTracked at h ⊢
  simp only [hreason, ne_eq, not_false_eq_true, if_true] at h ⊢
  have hnew := fun e' => (lookup_adjust_const he e' key).trans (if_pos rfl)
  obtain ⟨hq, hf⟩ := noticed_flags (e := e) reason
  by_cases hflight : e.inFlight = true
  · rw [if_pos hflight, requested_of_lookup (hnew _)]
    simp [Entry.requested, hf, hflight]
  · rw [if_neg hflight] at h ⊢
    by_cases hqueued : e.queued = true
    · rw [if_pos hqueued, requested_of_lookup (hnew _)]
      simp [Entry.requested, hq, hqueued]
    · rw [if_neg hqueued] at h ⊢
      split at h
      · exact absurd rfl (h _)
      · rename_i hwait
        rw [if_neg hwait, requested_of_lookup (hnew _)]
        rfl

theorem track_requested (q : Queue) (key : Key) (reason : Reason) : (q.track key reason).requested key = true := by
  rw [requested_of_lookup (e := { queued := true, reason := reason })]
  · rfl
  · exact AList.lookup_insert q.entries

theorem enqueue_requested (hreason : reason ≠ .periodic) (h : ∀ r, (q.enqueue key reason now).1 ≠ .refused r) :
    (q.enqueue key reason now).2.requested key = true := by
  unfold enqueue at h ⊢
  cases he : q.entries.lookup key with
  | some e =>
    simp only [he] at h ⊢
    exact enqueueTracked_answer he hreason h
  | none =>
    simp only [he] at h ⊢
    split at h
    · rename_i hfull
      rw [if_pos hfull]
      split at h
      · apply track_requested
      · exact absurd rfl (h _)
    · rename_i hroom
      rw [if_neg hroom]
      apply track_requested

/-! ## What keeps it -/

theorem triggered_requested (h : e.requested = true) (reason : Reason) (now : Instant) :
    (e.triggered reason now).requested = true := by
  have hnoticed : (e.noticed reason).requested = true := (noticed_requested reason).trans h
  obtain ⟨hq, hf⟩ := noticed_flags (e := e) reason
  unfold Entry.triggered
  simp only
  split
  · rename_i hflight
    split
    · simp [Entry.requested, hf, hflight]
    · exact hnoticed
  · split
    · rename_i hqueued
      split
      · simp [Entry.requested, hq, hqueued]
      · exact hnoticed
    · split
      · exact hnoticed
      · rfl

theorem after_requested (h : e.requested = true) (a : Action) : (after k a e).requested = true := by
  cases a with
  | enqueue key reason now =>
    simp only [after]
    split
    · exact triggered_requested h reason now
    · exact h
  | requeueDueRetries now =>
    simp only [after]
    split
    · rfl
    · exact h
  | peerReachable key =>
    simp only [after]
    split <;> exact h
  | resetSynchronizedForRoom room =>
    simp only [after]
    split <;> exact h
  | nextReady now periodicAllowed => exact h
  | finish key verdict now => exact h
  | rehash entries => exact h

theorem not_evicts_requested (h : q.requested k = true) (a : Action) : ¬Evicts k a q := by
  cases a with
  | enqueue key reason now =>
    rintro ⟨-, -, hvictim⟩
    obtain ⟨e, he, hq, hf⟩ := victim_idle hvictim
    rw [requested_of_lookup he] at h
    rcases Entry.busy_of_requested h with hbusy | hbusy
    · rw [hq] at hbusy
      cases hbusy
    · rw [hf] at hbusy
      cases hbusy
  | _ => exact id

theorem ended_dirty (e : Entry) (base limit : Duration) (verdict : Verdict) (now : Instant) :
    (e.ended base limit verdict now).dirty = e.dirty := by
  unfold Entry.ended
  cases verdict with
  | synchronized =>
    simp only
    split <;> rfl
  | done => rfl
  | continuation => rfl
  | failed => rfl
  | unsupported => rfl
  | dropped => rfl

theorem finish_dirty (he : q.entries.lookup k = some e) (hdirty : e.dirty = true) {verdict : Verdict}
    (hverdict : verdict ≠ .dropped) :
    (q.finish k verdict now).1 = true ∧ (q.finish k verdict now).2.isQueued k = true ∧
      k ∈ (q.finish k verdict now).2.ready := by
  have hpush : ∀ e', (q.pushBack k e').isQueued k = true ∧ k ∈ (q.pushBack k e').ready := by
    intro e'
    refine ⟨?_, List.mem_append_right _ List.mem_cons_self⟩
    rw [isQueued_of_lookup ((lookup_adjust_const he _ k).trans (if_pos rfl))]
  have hd := ended_dirty e q.failureBackoff q.failureBackoffMax verdict now
  rw [hdirty] at hd
  unfold finish
  rw [if_neg hverdict, he]
  simp only
  split
  · exact ⟨rfl, hpush _⟩
  · exact ⟨rfl, hpush _⟩

theorem finish_keeps (h : q.requested k = true) (hv : q.Valid limits) (hrun : q.isInFlight k = true)
    {verdict : Verdict} (hverdict : verdict ≠ .dropped) : (q.finish k verdict now).2.requested k = true := by
  rcases requested_iff.mp h with hq | ⟨e, he, -, hdirty⟩
  · rw [hv.exclusive k hrun] at hq
    cases hq
  · exact requested_iff.mpr (.inl (finish_dirty he hdirty hverdict).2.1)

theorem step_keeps {a : Action} (hv : q.Valid limits) (h : q.requested k = true) (hok : Waits limits k a q)
    (hs : q.step limits a = some q') : q'.requested k = true := by
  obtain ⟨hends, htakes, hdrops⟩ := hok
  obtain ⟨e, he, hreq⟩ := (Option.any_eq_true ..).mp h
  by_cases hfinishes : Finishes k a
  · cases a with
    | finish key verdict now =>
      cases hs
      cases hfinishes
      exact finish_keeps h hv hends fun hverdict => hdrops ⟨rfl, hverdict⟩
    | _ => cases hfinishes
  · exact (requested_of_lookup (step_lookup he htakes (not_evicts_requested h a) hfinishes hs)).trans
      (after_requested hreq a)

end

/-- After a trigger that is not periodic and not refused, in every later state of every
run until the pair is taken: the pair is in the ready list, or its exchange is running and
marked dirty, in which case any end of it other than the one that drops the pair puts
the pair into the ready list. -/
theorem trigger_kept (limits : Limits) (base max : Duration) {q q' : Queue} (k : Key)
    (reason : Reason) (now : Instant)
    (hrun : Reaches (fun a q => q.step limits a) Ends ((Queue.new limits.maxTracked).withFailureBackoff base max) q)
    (hreason : reason ≠ .periodic) (haccepted : ∀ r, (q.enqueue k reason now).1 ≠ .refused r)
    (hlater : Reaches (fun a q => q.step limits a) (Waits limits k) (q.enqueue k reason now).2 q') :
    (q'.isQueued k = true ∧ k ∈ q'.ready) ∨
      ∃ e, q'.entries.lookup k = some e ∧ e.inFlight = true ∧ e.dirty = true ∧
        ∀ verdict now', verdict ≠ .dropped →
          (q'.finish k verdict now').1 = true ∧ (q'.finish k verdict now').2.isQueued k = true ∧
            k ∈ (q'.finish k verdict now').2.ready := by
  have hvalid : q.Valid limits :=
    Reaches.invariant (new_valid limits base max) (fun _ _ _ h hok hs => step_valid h hok hs) hrun
  have hkept : q'.Valid limits ∧ q'.requested k = true := by
    refine Reaches.invariant (P := fun q => q.Valid limits ∧ q.requested k = true)
      ⟨enqueue_valid hvalid reason, enqueue_requested hreason haccepted⟩ ?_ hlater
    intro a s s' hP hok hs
    exact ⟨step_valid hP.1 hok.1 hs, step_keeps hP.1 hP.2 hok hs⟩
  obtain ⟨hvalid', hreq⟩ := hkept
  rcases requested_iff.mp hreq with hq | ⟨e, he, hflight, hdirty⟩
  · refine .inl ⟨hq, ?_⟩
    apply List.count_pos_iff.mp
    rw [hvalid'.once k, if_pos hq]
    exact Nat.one_pos
  · exact .inr ⟨e, he, hflight, hdirty, fun verdict now' hv => finish_dirty he hdirty hv⟩

/-- A trigger that finds the pair running outlives the failure of the exchange, the
refusal of others and the peer's call. -/
theorem trigger_kept_failure :
    let limits : Limits := ⟨1, 1, 1⟩
    let k : Key := ⟨"!r:a", "b"⟩
    ∃ q q', runWhile (fun a q => step limits a q) Ends [.enqueue k .periodic 0, .nextReady 0 true]
        ((Queue.new limits.maxTracked).withFailureBackoff backoffBase backoffMax) = some q ∧
      runWhile (fun a q => step limits a q) (Waits limits k)
        [.enqueue ⟨"!s:a", "b"⟩ .explicit 1, .finish k .failed 2, .peerReachable k, .requeueDueRetries 3]
        (q.enqueue k .activity 1).2 = some q' ∧
      q'.isQueued k = true ∧ k ∈ q'.ready := by
  intro limits k
  have hsome : ((runWhile (fun a q => step limits a q) Ends [.enqueue k .periodic 0, .nextReady 0 true]
      ((Queue.new limits.maxTracked).withFailureBackoff backoffBase backoffMax)).bind fun q =>
        (runWhile (fun a q => step limits a q) (Waits limits k)
          [.enqueue ⟨"!s:a", "b"⟩ .explicit 1, .finish k .failed 2, .peerReachable k, .requeueDueRetries 3]
          (q.enqueue k .activity 1).2).map fun q' =>
            ((q.enqueue k .activity 1).1, (q'.entries.lookup k).any (·.inFlight))) =
      some (.coalesced, false) := by
    decide
  obtain ⟨q, hq, hrest⟩ := Option.bind_eq_some_iff.mp hsome
  obtain ⟨q', hq', heq⟩ := Option.map_eq_some_iff.mp hrest
  rw [Prod.mk.injEq] at heq
  obtain ⟨hanswer, hidle⟩ := heq
  refine ⟨q, q', hq, hq', ?_⟩
  have hkept := trigger_kept limits backoffBase backoffMax k .activity 1 (Reaches.of_runWhile _ .init hq)
    (fun h => by cases h) (fun r h => by rw [hanswer] at h; cases h) (Reaches.of_runWhile _ .init hq')
  rcases hkept with hqueued | ⟨e, he, hflight, -⟩
  · exact hqueued
  · rw [he] at hidle
    exact absurd (hidle.symm.trans hflight) (by decide)

end Queue

end Congruent.Reconcile
