import Congruent.Retries

/-!
# Explicit requests and backoff

An explicit request clears the times of an idle pair, and of a running one when its exchange
ends. It does not clear the not-before time of a pair that is queued already, and while an
exchange runs a later trigger takes its place.
-/

namespace Congruent.Reconcile

namespace Queue

/-- Nothing blocks the pair from a time on. -/
def Unblocked (q : Queue) (k : Key) (now : Instant) : Prop := ∀ t, now ≤ t → q.coolingDown k t = false

def queuedWaiting (q : Queue) (k : Key) (now : Instant) : Bool :=
  (q.entries.lookup k).any fun e => e.queued && waitsFor e.notBefore now

def lastReason (k : Key) : List Action → Reason → Reason
  | [], reason => reason
  | .enqueue key new _ :: as, reason => lastReason k as (if k = key ∧ new ≠ .periodic then new else reason)
  | _ :: as, reason => lastReason k as reason

/-- The not-before time that a verdict sets. -/
def penalty (q : Queue) (e : Entry) (verdict : Verdict) (now : Instant) : Option Instant :=
  match verdict with
  | .failed => Instant.checkedAdd now (backoff q.failureBackoff q.failureBackoffMax
      (U32.saturatingAdd e.failures 1))
  | .unsupported => Instant.checkedAdd now unsupportedBackoff
  | _ => none

/-- The verdict sets a time to come. -/
def penalised (q : Queue) (k : Key) (verdict : Verdict) (now : Instant) : Bool :=
  (q.entries.lookup k).any fun e => waitsFor (q.penalty e verdict now) now

/-- The exchange runs, and is marked for another pass with a reason. -/
def Carries (q : Queue) (k : Key) (reason : Reason) : Prop :=
  ∃ e, q.entries.lookup k = some e ∧ e.inFlight = true ∧ e.dirty = true ∧ e.reason = reason

section
variable {limits : Limits} {q q' : Queue} {k : Key} {e : Entry} {reason : Reason} {now : Instant}

theorem waitsFor_later {time : Option Instant} {t : Instant} (h : waitsFor time now = false) (ht : now ≤ t) :
    waitsFor time t = false := by
  cases time with
  | none => rfl
  | some until_ =>
    simp only [waitsFor, Option.any_some, decide_eq_false_iff_not] at h ⊢
    exact fun hlt => h (Nat.lt_of_le_of_lt ht hlt)

theorem unblocked_iff (he : q.entries.lookup k = some e) (hsync : e.synchronizedUntil = none) :
    q.Unblocked k now ↔ waitsFor e.notBefore now = false := by
  have hcool : ∀ t, q.coolingDown k t = waitsFor e.notBefore t := by
    intro t
    unfold coolingDown Entry.waiting
    rw [he, Option.any_some, hsync]
    exact Bool.or_false _
  constructor
  · intro h
    rw [← hcool]
    exact h now (Nat.le_refl _)
  · intro h t ht
    rw [hcool]
    exact waitsFor_later h ht

/-! ## A pair that is not running -/

theorem enqueue_new (hnone : q.entries.lookup k = none) (h : ∀ r, (q.enqueue k reason now).1 ≠ .refused r) :
    (q.enqueue k reason now).2.entries.lookup k = some { queued := true, reason := reason } := by
  have htrack : ∀ q₁ : Queue, (q₁.track k reason).entries.lookup k = some { queued := true, reason := reason } :=
    fun q₁ => AList.lookup_insert q₁.entries
  unfold enqueue at h ⊢
  simp only [hnone] at h ⊢
  split
  · rename_i hfull
    rw [if_pos hfull] at h
    split at h
    · exact htrack _
    · exact absurd rfl (h _)
  · exact htrack q

theorem enqueue_known (he : q.entries.lookup k = some e) :
    (q.enqueue k reason now).2.entries.lookup k = some (e.triggered reason now) := by
  unfold enqueue
  rw [he]
  exact (enqueueTracked_lookup he k).trans (if_pos rfl)

theorem triggered_explicit (hidle : e.inFlight = false) (now : Instant) :
    (e.triggered .explicit now).synchronizedUntil = none ∧
      (e.triggered .explicit now).notBefore = if e.queued then e.notBefore else none := by
  unfold Entry.triggered Entry.noticed Entry.overridden
  cases e.queued <;> simp [hidle]

theorem enqueue_unblocked (hidle : q.isInFlight k = false) (h : ∀ r, (q.enqueue k .explicit now).1 ≠ .refused r) :
    (q.enqueue k .explicit now).2.Unblocked k now ↔ q.queuedWaiting k now = false := by
  cases he : q.entries.lookup k with
  | none =>
    rw [unblocked_iff (enqueue_new he h) rfl, queuedWaiting, he]
    rfl
  | some e =>
    obtain ⟨hsync, hbefore⟩ := triggered_explicit ((isInFlight_of_lookup he).symm.trans hidle) now
    rw [unblocked_iff (enqueue_known he) hsync, hbefore, queuedWaiting, he, Option.any_some]
    cases e.queued <;> simp [waitsFor]

/-! ## A running pair -/

theorem enqueue_carries (hrun : q.isInFlight k = true) : (q.enqueue k .explicit now).2.Carries k .explicit := by
  obtain ⟨e, he, hflight⟩ := (Option.any_eq_true ..).mp hrun
  refine ⟨_, enqueue_known he, ?_⟩
  unfold Entry.triggered Entry.noticed
  simp [hflight]

theorem not_takes_running (hv : q.Valid limits) (hrun : q.isInFlight k = true) (a : Action) :
    ¬Takes limits k a q := by
  cases a with
  | nextReady now periodicAllowed =>
    intro htakes
    obtain ⟨⟨key, reason⟩, htaken, hkey⟩ := (Option.any_eq_true ..).mp htakes
    obtain rfl : key = k := by simpa using hkey
    have hqueued := hv.isQueued_of_mem (nextReady_taken htaken).1
    rw [hv.exclusive key hrun] at hqueued
    cases hqueued
  | _ => exact id

theorem not_evicts_running (hrun : q.isInFlight k = true) (a : Action) : ¬Evicts k a q := by
  cases a with
  | enqueue key reason now =>
    rintro ⟨-, -, hvictim⟩
    obtain ⟨e, he, -, hidle⟩ := victim_idle hvictim
    rw [isInFlight_of_lookup he, hidle] at hrun
    cases hrun
  | _ => exact id

theorem after_carries (hflight : e.inFlight = true) (hdirty : e.dirty = true) (a : Action) :
    (after k a e).inFlight = true ∧ (after k a e).dirty = true ∧
      (after k a e).reason = lastReason k [a] e.reason := by
  cases a with
  | enqueue key reason now =>
    simp only [after, lastReason]
    by_cases hk : k = key
    · by_cases hr : reason = .periodic <;> simp [hk, hr, Entry.triggered, Entry.noticed, hflight, hdirty]
    · simp [hk, hflight, hdirty]
  | requeueDueRetries now =>
    have hdue : due now e = false := by simp [due, hflight]
    simp [after, hdue, lastReason, hflight, hdirty]
  | peerReachable key =>
    simp only [after]
    split <;> exact ⟨hflight, hdirty, rfl⟩
  | resetSynchronizedForRoom room =>
    simp only [after]
    split <;> exact ⟨hflight, hdirty, rfl⟩
  | nextReady now periodicAllowed => exact ⟨hflight, hdirty, rfl⟩
  | finish key verdict now => exact ⟨hflight, hdirty, rfl⟩
  | rehash entries => exact ⟨hflight, hdirty, rfl⟩

theorem lastReason_cons (a : Action) (as : List Action) (reason : Reason) :
    lastReason k (a :: as) reason = lastReason k as (lastReason k [a] reason) := by
  cases a <;> rfl

theorem step_carries {a : Action} (hv : q.Valid limits) (h : q.Carries k reason) (hfinishes : ¬Finishes k a)
    (hs : q.step limits a = some q') : q'.Carries k (lastReason k [a] reason) := by
  obtain ⟨e, he, hflight, hdirty, rfl⟩ := h
  have hrun : q.isInFlight k = true := (isInFlight_of_lookup he).trans hflight
  exact ⟨_, step_lookup he (not_takes_running hv hrun a) (not_evicts_running hrun a) hfinishes hs,
    after_carries hflight hdirty a⟩

theorem run_carries : ∀ (as : List Action) {q : Queue} {reason : Reason}, q.Valid limits → q.Carries k reason →
    (∀ a ∈ as, ¬Finishes k a) → runWhile (fun a q => q.step limits a) Ends as q = some q' →
    q'.Carries k (lastReason k as reason)
  | [], q, reason, _, h, _, hrun => by
    cases hrun
    exact h
  | a :: as, q, reason, hv, h, hfinishes, hrun => by
    rw [runWhile] at hrun
    split at hrun
    · rename_i hends
      obtain ⟨q₁, hs, hrun⟩ := Option.bind_eq_some_iff.mp hrun
      rw [lastReason_cons]
      exact run_carries as (step_valid hv hends hs) (step_carries hv h (hfinishes a List.mem_cons_self) hs)
        (fun b hb => hfinishes b (List.mem_cons_of_mem _ hb)) hrun
    · cases hrun

theorem ended_times (q : Queue) (hdirty : e.dirty = true) {verdict : Verdict} (hverdict : verdict ≠ .dropped)
    (now : Instant) :
    (e.ended q.failureBackoff q.failureBackoffMax verdict now).synchronizedUntil = none ∧
      (e.ended q.failureBackoff q.failureBackoffMax verdict now).notBefore = q.penalty e verdict now ∧
      (e.ended q.failureBackoff q.failureBackoffMax verdict now).reason = e.reason := by
  cases verdict with
  | synchronized => simp [Entry.ended, penalty, hdirty]
  | done => simp [Entry.ended, penalty]
  | continuation => simp [Entry.ended, penalty]
  | failed => simp [Entry.ended, penalty]
  | unsupported => simp [Entry.ended, penalty]
  | dropped => exact absurd rfl hverdict

theorem finish_unblocked (h : q.Carries k reason) (verdict : Verdict) :
    (q.finish k verdict now).2.Unblocked k now ↔ reason = .explicit ∨ q.penalised k verdict now = false := by
  obtain ⟨e, he, -, hdirty, rfl⟩ := h
  have hpenalised : q.penalised k verdict now = waitsFor (q.penalty e verdict now) now := by
    rw [penalised, he]
    rfl
  have hpush : ∀ e' : Entry, e'.synchronizedUntil = none →
      ((q.pushBack k e').Unblocked k now ↔ waitsFor e'.notBefore now = false) := by
    intro e' hsync
    exact unblocked_iff (e := { e' with dirty := false, queued := true })
      ((lookup_adjust_const he _ k).trans (if_pos rfl)) hsync
  rw [hpenalised]
  by_cases hdropped : verdict = .dropped
  · subst hdropped
    refine ⟨fun _ => .inr rfl, fun _ t _ => ?_⟩
    unfold finish coolingDown
    rw [if_pos rfl, AList.lookup_erase]
    rfl
  obtain ⟨hsync, hbefore, hreason⟩ := ended_times q hdirty hdropped now
  have hd := ended_dirty e q.failureBackoff q.failureBackoffMax verdict now
  rw [hdirty] at hd
  unfold finish
  rw [if_neg hdropped, he]
  simp only
  generalize e.ended q.failureBackoff q.failureBackoffMax verdict now = e' at hsync hbefore hreason hd ⊢
  by_cases hcontinuation : verdict = .continuation
  · rw [if_pos hcontinuation]
    have hnone : e'.notBefore = none := by rw [hbefore, hcontinuation]; rfl
    refine (hpush { e' with reason := .continuation } hsync).trans ?_
    rw [hnone, hcontinuation]
    exact ⟨fun _ => .inr rfl, fun _ => rfl⟩
  · rw [if_neg hcontinuation, if_pos hd, hreason]
    unfold Entry.overridden
    by_cases hexplicit : e.reason = .explicit
    · rw [if_pos hexplicit]
      exact (hpush _ rfl).trans ⟨fun _ => .inl hexplicit, fun _ => rfl⟩
    · rw [if_neg hexplicit, or_iff_right hexplicit, ← hbefore]
      exact hpush _ hsync

end

/-- An explicit request that is not refused lifts the times of a pair that is not running just where
the pair is not queued with a not-before time to come; of a running pair, when its exchange
ends, just where no trigger that counts came after it, or the end of the exchange sets no
time to come. -/
theorem explicit_overrides_iff (limits : Limits) (base max : Duration) {q : Queue} (k : Key) (now : Instant)
    (hrun : Reaches (fun a q => q.step limits a) Ends ((Queue.new limits.maxTracked).withFailureBackoff base max) q)
    (haccepted : ∀ r, (q.enqueue k .explicit now).1 ≠ .refused r) :
    (q.isInFlight k = false → ((q.enqueue k .explicit now).2.Unblocked k now ↔ q.queuedWaiting k now = false)) ∧
      (q.isInFlight k = true → ∀ actions q', (∀ a ∈ actions, ¬Finishes k a) →
        runWhile (fun a q => q.step limits a) Ends actions (q.enqueue k .explicit now).2 = some q' →
        ∀ verdict later, (q'.finish k verdict later).2.Unblocked k later ↔
          lastReason k actions .explicit = .explicit ∨ q'.penalised k verdict later = false) := by
  have hvalid : q.Valid limits :=
    Reaches.invariant (new_valid limits base max) (fun _ _ _ h hok hs => step_valid h hok hs) hrun
  refine ⟨fun hidle => enqueue_unblocked hidle haccepted,
    fun hrunning actions q' hfinishes hrun' verdict later => ?_⟩
  exact finish_unblocked
    (run_carries actions (enqueue_valid hvalid .explicit) (enqueue_carries hrunning) hfinishes hrun') verdict

/-- A request that finds the pair running, and another when its failed exchange has ended: the
first gives way to the activity after it, the second finds the pair queued with its backoff. -/
theorem explicit_request_lost :
    let limits : Limits := ⟨1, 1, 1⟩
    let k : Key := ⟨"!r:a", "b"⟩
    ∃ q q', runWhile (fun a q => step limits a q) Ends [.enqueue k .periodic 0, .nextReady 0 true]
        ((Queue.new limits.maxTracked).withFailureBackoff backoffBase backoffMax) = some q ∧
      q.isInFlight k = true ∧
      runWhile (fun a q => step limits a q) Ends [.enqueue k .activity 2] (q.enqueue k .explicit 1).2 = some q' ∧
      ¬(q'.finish k .failed 3).2.Unblocked k 3 ∧
      Ends (.finish k .failed 3) q' ∧ (q'.finish k .failed 3).2.isInFlight k = false ∧
      ((q'.finish k .failed 3).2.enqueue k .explicit 4).1 = .coalesced ∧
      ¬((q'.finish k .failed 3).2.enqueue k .explicit 4).2.Unblocked k 4 := by
  intro limits k
  have hsome : ((runWhile (fun a q => step limits a q) Ends [.enqueue k .periodic 0, .nextReady 0 true]
      ((Queue.new limits.maxTracked).withFailureBackoff backoffBase backoffMax)).bind fun q =>
        (runWhile (fun a q => step limits a q) Ends [.enqueue k .activity 2]
          (q.enqueue k .explicit 1).2).map fun q' =>
          decide (q.isInFlight k = true ∧ (q'.finish k .failed 3).2.coolingDown k 3 = true ∧
            Ends (.finish k .failed 3) q' ∧ (q'.finish k .failed 3).2.isInFlight k = false ∧
            ((q'.finish k .failed 3).2.enqueue k .explicit 4).1 = .coalesced ∧
            ((q'.finish k .failed 3).2.enqueue k .explicit 4).2.coolingDown k 4 = true)) = some true := by
    decide
  obtain ⟨q, hq, hrest⟩ := Option.bind_eq_some_iff.mp hsome
  obtain ⟨q', hq', hall⟩ := Option.map_eq_some_iff.mp hrest
  obtain ⟨hflight, hcool, hends, hidle, hanswer, hcool'⟩ := of_decide_eq_true hall
  refine ⟨q, q', hq, hflight, hq', fun h => ?_, hends, hidle, hanswer, fun h => ?_⟩
  · rw [h 3 (Nat.le_refl _)] at hcool
    cases hcool
  · rw [h 4 (Nat.le_refl _)] at hcool'
    cases hcool'

/-- With nothing but another explicit request and periodic ticks after it, a request that finds the
pair running lifts the backoff of the failed exchange. -/
theorem explicit_overrides_iff_repeated :
    let limits : Limits := ⟨1, 1, 1⟩
    let k : Key := ⟨"!r:a", "b"⟩
    ∃ q q', runWhile (fun a q => step limits a q) Ends [.enqueue k .periodic 0, .nextReady 0 true]
        ((Queue.new limits.maxTracked).withFailureBackoff backoffBase backoffMax) = some q ∧
      runWhile (fun a q => step limits a q) Ends
        [.enqueue k .activity 2, .enqueue k .explicit 3, .enqueue k .periodic 4, .requeueDueRetries 5]
        (q.enqueue k .explicit 1).2 = some q' ∧
      (q'.finish k .failed 6).2.Unblocked k 6 := by
  intro limits k
  have hsome : ((runWhile (fun a q => step limits a q) Ends [.enqueue k .periodic 0, .nextReady 0 true]
      ((Queue.new limits.maxTracked).withFailureBackoff backoffBase backoffMax)).bind fun q =>
        (runWhile (fun a q => step limits a q) Ends
          [.enqueue k .activity 2, .enqueue k .explicit 3, .enqueue k .periodic 4, .requeueDueRetries 5]
          (q.enqueue k .explicit 1).2).map fun _ => (q.isInFlight k, (q.enqueue k .explicit 1).1)) =
      some (true, .coalesced) := by
    decide
  obtain ⟨q, hq, hrest⟩ := Option.bind_eq_some_iff.mp hsome
  obtain ⟨q', hq', heq⟩ := Option.map_eq_some_iff.mp hrest
  obtain ⟨hflight, hanswer⟩ := Prod.mk.inj heq
  have hiff := (explicit_overrides_iff limits backoffBase backoffMax k 1 (Reaches.of_runWhile _ .init hq)
    (fun r h => by rw [hanswer] at h; cases h)).2 hflight _ q' (by simp [Finishes]) hq' .failed 6
  exact ⟨q, q', hq, hq', hiff.mpr (.inl (by decide))⟩

end Queue

end Congruent.Reconcile
