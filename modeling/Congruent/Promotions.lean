import Mathlib.Algebra.Ring.Nat
import Mathlib.Logic.Function.Basic
import Congruent.Machine
import Congruent.Server

/-!
# Promotions, rejections and retries

The promotion of outliers (`promote_outlier`, `promotion_claims.rs`), the marking of
events as rejected and the operations that take a rejection back, many at a time. A step
is one access to what they share; a verdict is updated in one step.
-/

namespace Congruent.Promotions

/-- `PromotionDisposition`. -/
inductive Disposition where
  | promoting
  | rejected
  deriving DecidableEq

structure Marker where
  code : RejectionCode
  /-- Since when the event has been rejected, permanently or not as it is now. -/
  since : Nat
  deriving DecidableEq

inductive RetryOp where
  /-- `take_retry_if_rejection_retryable`. -/
  | takeRetry
  /-- `take_retry_if_rejection_retryable_for_promotion`. -/
  | takeRetryForPromotion
  | finishPromotion
  deriving DecidableEq

/-- What a retry operation does after its read: whether it clears the rejection, and what it answers. -/
structure Decision where
  clears : Bool
  answer : Bool

def RetryOp.decide : RetryOp → Option RejectionCode → Decision
  | .takeRetry, none => ⟨false, false⟩
  | .takeRetry, some code => ⟨code.isRetryable, code.isRetryable⟩
  | .takeRetryForPromotion, none => ⟨false, true⟩
  | .finishPromotion, none => ⟨true, true⟩
  | .takeRetryForPromotion, some code | .finishPromotion, some code =>
    if code = .missingAuthEvent then ⟨false, false⟩ else ⟨code.isRetryable, code.isRetryable⟩

inductive Answer where
  | marked
  | answered (answer : Bool)
  | skipped
  | failed
  deriving DecidableEq

inductive Phase where
  | marking (code : RejectionCode)
  | reading (op : RetryOp)
  | clearing (answer : Bool)
  -- `promote_outlier_batch`, up to the insert lock
  | checking
  | loading
  | locking
  -- under the insert lock of the room
  | rechecking
  | claiming
  | checkingRejected
  | checkingSoftFailed
  | associating
  | abandoning
  /-- The write is in a batch that is not applied yet. -/
  | queued
  /-- `finish_promote_outlier`. -/
  | releasing
  | returned (answer : Answer)
  deriving DecidableEq

structure Task where
  roomId : RoomId
  eventId : EventId
  phase : Phase
  committed : Option Nat := none
  deriving DecidableEq

def Phase.locked : Phase → Bool
  | .rechecking | .claiming | .checkingRejected | .checkingSoftFailed | .associating => true
  | _ => false

/-- What the tasks share, with a clock that counts the batches applied. -/
structure Shared where
  rejections : EventId → Option Marker
  softFailed : EventId → Bool
  claims : EventId → Option Disposition
  timeline : EventId → Bool
  clock : Nat

namespace Shared

def code (s : Shared) (id : EventId) : Option RejectionCode := (s.rejections id).map (·.code)

def permanent (s : Shared) (id : EventId) : Bool := (s.rejections id).any fun m => !m.code.isRetryable

def markEventRejected (s : Shared) (id : EventId) (code : RejectionCode) : Shared :=
  match s.rejections id with
  | some old =>
    if !old.code.isRetryable && code.isRetryable then s
    else
      let since := if old.code.isRetryable = code.isRetryable then old.since else s.clock
      { s with rejections := Function.update s.rejections id (some ⟨code, since⟩) }
  | none => { s with rejections := Function.update s.rejections id (some ⟨code, s.clock⟩) }

def unmarkEventRejected (s : Shared) (id : EventId) : Shared :=
  { s with rejections := Function.update s.rejections id none }

def tryClaimPromotion (s : Shared) (id : EventId) : Bool × Shared :=
  match s.claims id with
  | some _ => (false, s)
  | none => (true, { s with claims := Function.update s.claims id (some .promoting) })

def releasePromotionClaim (s : Shared) (id : EventId) : Shared :=
  if s.claims id = some .promoting then { s with claims := Function.update s.claims id none } else s

/-- `db_apply_batch`. -/
def applyBatch (s : Shared) (id : EventId) : Shared :=
  { s with timeline := Function.update s.timeline id true, clock := s.clock + 1 }

/-- A task goes on; `locked` tells that another task has the insert lock of the room, `fails` that
the access fails. -/
def go (s : Shared) (locked fails : Bool) (t : Task) : Option (Shared × Task) :=
  let next (phase : Phase) : Option (Shared × Task) := some (s, { t with phase := phase })
  match t.phase with
  | .marking code =>
    if fails then next (.returned .failed)
    else some (s.markEventRejected t.eventId code, { t with phase := .returned .marked })
  | .reading op =>
    if fails then next (.returned (if op = .finishPromotion then .answered false else .failed))
    else
      let d := op.decide (s.code t.eventId)
      next (if d.clears then .clearing d.answer else .returned (.answered d.answer))
  | .clearing answer =>
    if fails then next (.returned .failed)
    else some (s.unmarkEventRejected t.eventId, { t with phase := .returned (.answered answer) })
  | .checking => next (if s.timeline t.eventId then .returned .skipped else .loading)
  | .loading => next (if fails then .returned .failed else .locking)
  | .locking => if locked then none else next .rechecking
  | .rechecking => next (if s.timeline t.eventId then .returned .skipped else .claiming)
  | .claiming =>
    match s.tryClaimPromotion t.eventId with
    | (true, s) => some (s, { t with phase := .checkingRejected })
    | (false, s) => some (s, { t with phase := .returned .skipped })
  | .checkingRejected =>
    if fails then some (s.releasePromotionClaim t.eventId, { t with phase := .returned .failed })
    else next (if (s.code t.eventId).isSome then .abandoning else .checkingSoftFailed)
  | .checkingSoftFailed =>
    if fails then some (s.releasePromotionClaim t.eventId, { t with phase := .returned .failed })
    else next (if s.softFailed t.eventId then .abandoning else .associating)
  | .associating =>
    if fails then some (s.releasePromotionClaim t.eventId, { t with phase := .returned .failed })
    else next .queued
  | .abandoning => some (s.releasePromotionClaim t.eventId, { t with phase := .returned .skipped })
  | .queued => some (s.applyBatch t.eventId, { t with phase := .releasing, committed := some s.clock })
  | .releasing => some (s.releasePromotionClaim t.eventId, { t with phase := .reading .finishPromotion })
  | .returned _ => none

end Shared

structure State where
  shared : Shared
  tasks : List Task

inductive Action where
  | mark (id : EventId) (code : RejectionCode)
  | retry (op : RetryOp) (id : EventId)
  | promote (room : RoomId) (id : EventId)
  | softFail (id : EventId) (failed : Bool)
  | go (i : Nat) (fails : Bool)

namespace State

def init : State := ⟨⟨fun _ => none, fun _ => false, fun _ => none, fun _ => false, 0⟩, []⟩

def call (s : State) (room : RoomId) (id : EventId) (phase : Phase) : State :=
  { s with tasks := s.tasks ++ [{ roomId := room, eventId := id, phase := phase }] }

def locked (s : State) (room : RoomId) : Bool := s.tasks.any fun t => t.phase.locked && decide (t.roomId = room)

def step : Action → State → Option State
  | .mark id code, s => some (s.call "" id (.marking code))
  | .retry op id, s => some (s.call "" id (.reading op))
  | .promote room id, s => some (s.call room id .checking)
  | .softFail id failed, s =>
    some { s with shared := { s.shared with softFailed := Function.update s.shared.softFailed id failed } }
  | .go i fails, s =>
    s.tasks[i]?.bind fun t =>
      (s.shared.go (s.locked t.roomId) fails t).map fun r => { s with shared := r.1, tasks := s.tasks.set i r.2 }

end State

/-! ## What a step does -/

def Phase.isClearing : Phase → Bool
  | .clearing _ => true
  | _ => false

/-- Between the verdict check of a promotion and its commit. -/
def Phase.isChecked : Phase → Bool
  | .checkingSoftFailed | .associating | .queued => true
  | _ => false

namespace Shared

variable {s s' : Shared} {locked fails : Bool} {t t' : Task} {id id' : EventId} {code : RejectionCode}

theorem permanent_of_code (h : s.code id = none) : s.permanent id = false := by
  unfold code at h
  unfold permanent
  rw [Option.map_eq_none_iff] at h
  rw [h]
  rfl

theorem permanent_of_retryable (h : s.code id = some code) (hcode : code.isRetryable = true) :
    s.permanent id = false := by
  unfold Shared.code at h
  obtain ⟨m, hm, rfl⟩ := Option.map_eq_some_iff.mp h
  unfold permanent
  rw [hm]
  simp [hcode]

theorem decide_clears {op : RetryOp} (h : (op.decide (s.code id)).clears = true) : s.permanent id = false := by
  cases hc : s.code id with
  | none => exact permanent_of_code hc
  | some code =>
    rw [hc] at h
    refine permanent_of_retryable hc ?_
    cases op with
    | takeRetry => exact h
    | takeRetryForPromotion | finishPromotion =>
      unfold RetryOp.decide at h
      by_cases hm : code = .missingAuthEvent
      · simp [hm] at h
      · simpa [hm] using h

theorem permanent_unmark : (s.unmarkEventRejected id).permanent id' = if id' = id then false else
    s.permanent id' := by
  unfold permanent unmarkEventRejected
  by_cases h : id' = id
  · rw [h, if_pos rfl]
    simp
  · rw [if_neg h]
    simp [h]

theorem permanent_mark : (s.markEventRejected id code).permanent id' =
    if id' = id then s.permanent id || !code.isRetryable else s.permanent id' := by
  unfold permanent markEventRejected
  by_cases h : id' = id
  · subst h
    rw [if_pos rfl]
    cases hold : s.rejections id' with
    | none => simp
    | some old =>
      cases ho : old.code.isRetryable <;> cases hc : code.isRetryable <;> simp [ho, hc, hold]
  · rw [if_neg h]
    cases hold : s.rejections id with
    | none => simp [h]
    | some old =>
      simp only
      split
      · rfl
      · simp [h]

theorem release_spec (id : EventId) : (s.releasePromotionClaim id).rejections = s.rejections ∧
    (s.releasePromotionClaim id).clock = s.clock := by
  unfold releasePromotionClaim
  split <;> exact ⟨rfl, rfl⟩

structure Quiet (s s' : Shared) (t t' : Task) : Prop where
  rejections : s'.rejections = s.rejections
  clock : s'.clock = s.clock
  committed : t'.committed = t.committed
  clearing : t'.phase.isClearing = true → s.permanent t.eventId = false
  checked : t'.phase.isChecked = true → t.phase.isChecked = true ∨ s.permanent t.eventId = false

variable {room : RoomId} {phase phase' : Phase} {committed : Option Nat}

theorem Quiet.of_phase (hrej : s'.rejections = s.rejections) (hclock : s'.clock = s.clock)
    (hclear : phase'.isClearing = true → s.permanent id = false)
    (hcheck : phase'.isChecked = true → phase.isChecked = true ∨ s.permanent id = false) :
    Quiet s s' ⟨room, id, phase, committed⟩ ⟨room, id, phase', committed⟩ :=
  ⟨hrej, hclock, rfl, hclear, hcheck⟩

theorem Quiet.idle (hrej : s'.rejections = s.rejections) (hclock : s'.clock = s.clock)
    (hclear : phase'.isClearing = false) (hcheck : phase'.isChecked = false) :
    Quiet s s' ⟨room, id, phase, committed⟩ ⟨room, id, phase', committed⟩ := by
  refine .of_phase hrej hclock (fun h => ?_) fun h => ?_
  · rw [hclear] at h
    cases h
  · rw [hcheck] at h
    cases h

theorem go_cases (h : s.go locked fails t = some (s', t')) : t'.eventId = t.eventId ∧
    ((∃ code, fails = false ∧ t.phase = .marking code ∧ s' = s.markEventRejected t.eventId code ∧
        t' = { t with phase := .returned .marked }) ∨
      (∃ answer, t.phase = .clearing answer ∧ s' = s.unmarkEventRejected t.eventId ∧
        t' = { t with phase := .returned (.answered answer) }) ∨
      (t.phase = .queued ∧ s' = s.applyBatch t.eventId ∧
        t' = { t with phase := .releasing, committed := some s.clock }) ∨
      Quiet s s' t t') := by
  obtain ⟨room, id, phase, committed⟩ := t
  have hrelease := release_spec (s := s) id
  cases phase with
  | marking code =>
    cases hf : fails <;> rw [hf] at h <;> cases h
    · exact ⟨rfl, .inl ⟨code, rfl, rfl, rfl, rfl⟩⟩
    · exact ⟨rfl, .inr (.inr (.inr (.idle rfl rfl rfl rfl)))⟩
  | reading op =>
    cases hf : fails <;> rw [hf] at h <;> cases h
    · refine ⟨rfl, .inr (.inr (.inr (.of_phase rfl rfl (fun hc => ?_) fun hc => ?_)))⟩
      · by_cases hd : (op.decide (s.code id)).clears = true
        · exact decide_clears hd
        · rw [if_neg hd] at hc
          cases hc
      · split at hc <;> cases hc
    · exact ⟨rfl, .inr (.inr (.inr (.idle rfl rfl rfl rfl)))⟩
  | clearing answer =>
    cases hf : fails <;> rw [hf] at h <;> cases h
    · exact ⟨rfl, .inr (.inl ⟨answer, rfl, rfl, rfl⟩)⟩
    · exact ⟨rfl, .inr (.inr (.inr (.idle rfl rfl rfl rfl)))⟩
  | checking =>
    cases h
    refine ⟨rfl, .inr (.inr (.inr (.idle rfl rfl ?_ ?_)))⟩ <;> split <;> rfl
  | loading =>
    cases h
    refine ⟨rfl, .inr (.inr (.inr (.idle rfl rfl ?_ ?_)))⟩ <;> split <;> rfl
  | locking =>
    cases hl : locked <;> rw [hl] at h <;> cases h
    exact ⟨rfl, .inr (.inr (.inr (.idle rfl rfl rfl rfl)))⟩
  | rechecking =>
    cases h
    refine ⟨rfl, .inr (.inr (.inr (.idle rfl rfl ?_ ?_)))⟩ <;> split <;> rfl
  | claiming =>
    unfold go tryClaimPromotion at h
    cases hclaim : s.claims id <;> simp only [hclaim] at h <;> cases h <;>
      exact ⟨rfl, .inr (.inr (.inr (.idle rfl rfl rfl rfl)))⟩
  | checkingRejected =>
    cases hf : fails <;> rw [hf] at h <;> cases h
    · -- the check lets through only what has no rejection
      refine ⟨rfl, .inr (.inr (.inr (.of_phase rfl rfl (fun hc => ?_) fun hc => .inr ?_)))⟩
      · split at hc <;> cases hc
      · cases hcode : s.code id with
        | none => exact permanent_of_code hcode
        | some code =>
          rw [hcode] at hc
          cases hc
    · exact ⟨rfl, .inr (.inr (.inr (.idle hrelease.1 hrelease.2 rfl rfl)))⟩
  | checkingSoftFailed =>
    cases hf : fails <;> rw [hf] at h <;> cases h
    · refine ⟨rfl, .inr (.inr (.inr (.of_phase rfl rfl (fun hc => ?_) fun _ => .inl rfl)))⟩
      split at hc <;> cases hc
    · exact ⟨rfl, .inr (.inr (.inr (.idle hrelease.1 hrelease.2 rfl rfl)))⟩
  | associating =>
    cases hf : fails <;> rw [hf] at h <;> cases h
    · exact ⟨rfl, .inr (.inr (.inr (.of_phase rfl rfl (fun hc => by cases hc) fun _ => .inl rfl)))⟩
    · exact ⟨rfl, .inr (.inr (.inr (.idle hrelease.1 hrelease.2 rfl rfl)))⟩
  | abandoning =>
    cases h
    exact ⟨rfl, .inr (.inr (.inr (.idle hrelease.1 hrelease.2 rfl rfl)))⟩
  | queued =>
    cases h
    exact ⟨rfl, .inr (.inr (.inl ⟨rfl, rfl, rfl⟩))⟩
  | releasing =>
    cases h
    exact ⟨rfl, .inr (.inr (.inr (.idle hrelease.1 hrelease.2 rfl rfl)))⟩
  | returned answer => cases h

theorem since_mark {m : Marker} (h : (s.markEventRejected id code).rejections id' = some m)
    (hm : m.code.isRetryable = false) :
    (∃ old, s.rejections id' = some old ∧ old.code.isRetryable = false ∧ old.since = m.since) ∨
      m.since = s.clock := by
  unfold markEventRejected at h
  by_cases hid : id' = id
  · subst hid
    cases hold : s.rejections id' with
    | none =>
      rw [hold] at h
      simp only [Function.update_self, Option.some.injEq] at h
      exact .inr (by rw [← h])
    | some old =>
      rw [hold] at h
      simp only at h
      split at h
      · rw [hold, Option.some.injEq] at h
        exact .inl ⟨old, rfl, h ▸ hm, by rw [h]⟩
      · simp only [Function.update_self, Option.some.injEq] at h
        subst h
        by_cases hsame : old.code.isRetryable = code.isRetryable
        · exact .inl ⟨old, rfl, hsame.trans hm, by rw [if_pos hsame]⟩
        · exact .inr (by rw [if_neg hsame])
  · refine .inl ⟨m, ?_, hm, rfl⟩
    split at h
    · split at h
      · exact h
      · simpa [hid] using h
    · simpa [hid] using h

end Shared

/-! ## Runs -/

def Phase.marksForGood : Phase → Bool
  | .marking code => !code.isRetryable
  | _ => false

namespace State

variable {s s' : State} {inside : Phase → Bool} {id : EventId}

/-- No permanent rejection of an event is recorded while another task for it is in some phases. -/
def MarksOutside (inside : Phase → Bool) : Action → State → Prop
  | .go i fails, s => fails = false → ∀ t ∈ s.tasks[i]?, t.phase.marksForGood = true →
      ∀ t' ∈ s.tasks, t'.eventId = t.eventId → inside t'.phase = false
  | .mark .., _ | .retry .., _ | .promote .., _ | .softFail .., _ => True

instance (inside : Phase → Bool) : ∀ (a : Action) (s : State), Decidable (MarksOutside inside a s)
  | .go i fails, s => inferInstanceAs (Decidable (fails = false → ∀ t ∈ s.tasks[i]?, t.phase.marksForGood = true →
      ∀ t' ∈ s.tasks, t'.eventId = t.eventId → inside t'.phase = false))
  | .mark .., _ | .retry .., _ | .promote .., _ | .softFail .., _ => .isTrue trivial

def Free (inside : Phase → Bool) (s : State) : Prop :=
  ∀ t ∈ s.tasks, inside t.phase = true → s.shared.permanent t.eventId = false

/-- Phases that are entered by an access that finds no permanent rejection. -/
structure Guarded (inside : Phase → Bool) : Prop where
  quiet : ∀ {s s' t t'}, Shared.Quiet s s' t t' → inside t'.phase = true →
    inside t.phase = true ∨ s.permanent t.eventId = false
  marking : ∀ code, inside (.marking code) = false
  reading : ∀ op, inside (.reading op) = false
  checking : inside .checking = false
  releasing : inside .releasing = false
  returned : ∀ answer, inside (.returned answer) = false

theorem guarded_clearing : Guarded Phase.isClearing where
  quiet h hin := .inr (h.clearing hin)
  marking _ := rfl
  reading _ := rfl
  checking := rfl
  releasing := rfl
  returned _ := rfl

theorem guarded_checked : Guarded Phase.isChecked where
  quiet h hin := h.checked hin
  marking _ := rfl
  reading _ := rfl
  checking := rfl
  releasing := rfl
  returned _ := rfl

theorem permanent_congr {s s' : Shared} (h : s'.rejections = s.rejections) (id : EventId) :
    s'.permanent id = s.permanent id := by
  unfold Shared.permanent
  rw [h]

theorem Free.call (h : Free inside s) (room : RoomId) {phase : Phase} (hphase : inside phase = false) :
    Free inside (s.call room id phase) := by
  intro t ht hin
  rcases List.mem_append.mp ht with hmem | hnew
  · exact h t hmem hin
  · rw [List.mem_singleton.mp hnew, hphase] at hin
    cases hin

theorem Free.go (hg : Guarded inside) (h : Free inside s) {i : Nat} {fails : Bool} {t t' : Task} {shared : Shared}
    (hi : s.tasks[i]? = some t) (hgo : s.shared.go (s.locked t.roomId) fails t = some (shared, t'))
    (hok : MarksOutside inside (.go i fails) s) :
    Free inside { s with shared := shared, tasks := s.tasks.set i t' } := by
  obtain ⟨hid, hcases⟩ := Shared.go_cases hgo
  intro u hu hin
  have hu' : u = t' ∨ u ∈ s.tasks := by
    rcases mem_set_of_some hi hu with hnew | ⟨j, -, hj⟩
    · exact .inl hnew
    · exact .inr (List.mem_of_getElem? hj)
  rcases hcases with ⟨code, hf, hphase, rfl, rfl⟩ | ⟨answer, hphase, rfl, rfl⟩ | ⟨hphase, rfl, rfl⟩ | hquiet
  · rcases hu' with rfl | hmem
    · rw [hg.returned] at hin
      cases hin
    · show (s.shared.markEventRejected t.eventId code).permanent u.eventId = false
      rw [Shared.permanent_mark]
      by_cases heq : u.eventId = t.eventId
      · -- the code is not permanent, or this task would be outside
        have hcode : code.isRetryable = true := by
          by_contra hperm
          have hmarks : t.phase.marksForGood = true := by
            rw [hphase]
            simpa [Phase.marksForGood] using hperm
          rw [hok hf t hi hmarks u hmem heq] at hin
          cases hin
        rw [if_pos heq, hcode, ← heq, h u hmem hin]
        rfl
      · rw [if_neg heq]
        exact h u hmem hin
  · rcases hu' with rfl | hmem
    · rw [hg.returned] at hin
      cases hin
    · show (s.shared.unmarkEventRejected t.eventId).permanent u.eventId = false
      rw [Shared.permanent_unmark]
      split
      · rfl
      · exact h u hmem hin
  · rcases hu' with rfl | hmem
    · rw [hg.releasing] at hin
      cases hin
    · exact h u hmem hin
  · show shared.permanent u.eventId = false
    rw [permanent_congr hquiet.rejections]
    rcases hu' with rfl | hmem
    · rw [hid]
      rcases hg.quiet hquiet hin with hin' | hfree
      · exact h t (List.mem_of_getElem? hi) hin'
      · exact hfree
    · exact h u hmem hin

theorem go_eq {i : Nat} {fails : Bool} (hs : step (.go i fails) s = some s') :
    ∃ t shared t', s.tasks[i]? = some t ∧ s.shared.go (s.locked t.roomId) fails t = some (shared, t') ∧
      s' = { s with shared := shared, tasks := s.tasks.set i t' } := by
  obtain ⟨t, ht, hs⟩ := Option.bind_eq_some_iff.mp hs
  obtain ⟨⟨shared, t'⟩, hgo, rfl⟩ := Option.map_eq_some_iff.mp hs
  exact ⟨t, shared, t', ht, hgo, rfl⟩

theorem step_free (hg : Guarded inside) {a : Action} (h : Free inside s) (hok : MarksOutside inside a s)
    (hs : step a s = some s') : Free inside s' := by
  cases a with
  | mark id code =>
    cases hs
    exact h.call _ (hg.marking code)
  | retry op id =>
    cases hs
    exact h.call _ (hg.reading op)
  | promote room id =>
    cases hs
    exact h.call room hg.checking
  | softFail id failed =>
    cases hs
    exact h
  | go i fails =>
    obtain ⟨t, shared, t', ht, hgo, rfl⟩ := go_eq hs
    exact h.go hg ht hgo hok

theorem init_free (inside : Phase → Bool) : Free inside init := by
  intro t ht
  cases ht

/-! ## Retries -/

theorem step_permanent {a : Action} (h : Free Phase.isClearing s) (hperm : s.shared.permanent id = true)
    (hs : step a s = some s') : s'.shared.permanent id = true := by
  cases a with
  | mark | retry | promote | softFail =>
    cases hs
    exact hperm
  | go i fails =>
    obtain ⟨t, shared, t', ht, hgo, rfl⟩ := go_eq hs
    show shared.permanent id = true
    rcases (Shared.go_cases hgo).2 with ⟨code, -, -, rfl, -⟩ | ⟨answer, hphase, rfl, -⟩ | ⟨-, rfl, -⟩ | hquiet
    · rw [Shared.permanent_mark]
      split
      · rename_i heq
        rw [← heq, hperm, Bool.true_or]
      · exact hperm
    · -- what is cleared was not permanent, and still is not
      have hclear : t.phase.isClearing = true := by
        rw [hphase]
        rfl
      have hfree := h t (List.mem_of_getElem? ht) hclear
      rw [Shared.permanent_unmark, if_neg]
      · exact hperm
      · intro heq
        rw [heq, hfree] at hperm
        cases hperm
    · exact hperm
    · rw [permanent_congr hquiet.rejections]
      exact hperm

/-- As long as no permanent rejection of an event is recorded between the read of a retry
operation that decides to clear and the clearing, a permanent rejection stays. -/
theorem permanent_rejection_kept (hrun : Reaches step (MarksOutside Phase.isClearing) init s)
    (hlater : Reaches step (MarksOutside Phase.isClearing) s s') (h : s.shared.permanent id = true) :
    s'.shared.permanent id = true := by
  have hfree : Free Phase.isClearing s :=
    Reaches.invariant (init_free _) (fun _ _ _ hf hok hs => step_free guarded_clearing hf hok hs) hrun
  have hboth : Free Phase.isClearing s' ∧ s'.shared.permanent id = true := by
    refine Reaches.invariant (P := fun s => Free Phase.isClearing s ∧ s.shared.permanent id = true)
      ⟨hfree, h⟩ ?_ hlater
    intro a s s' hP hok hs
    exact ⟨step_free guarded_clearing hP.1 hok hs, step_permanent hP.1 hP.2 hs⟩
  exact hboth.2

/-- A rejection recorded after a retry has cleared another stays, whatever is retried then. -/
theorem permanent_rejection_kept_retries : ∃ s s',
    runWhile step (MarksOutside Phase.isClearing)
      [.mark "$e" .prevEventsRejected, .go 0 false, .retry .takeRetry "$e", .go 1 false, .go 1 false,
        .mark "$e" .authCheckFailed, .go 2 false] init = some s ∧
      runWhile step (MarksOutside Phase.isClearing)
        [.retry .takeRetryForPromotion "$e", .go 3 false, .retry .finishPromotion "$e", .go 4 false,
          .mark "$e" .missingAuthEvent, .go 5 false] s = some s' ∧
      s'.shared.permanent "$e" = true := by
  have hsome : ((runWhile step (MarksOutside Phase.isClearing)
      [.mark "$e" .prevEventsRejected, .go 0 false, .retry .takeRetry "$e", .go 1 false, .go 1 false,
        .mark "$e" .authCheckFailed, .go 2 false] init).bind fun s =>
      (runWhile step (MarksOutside Phase.isClearing)
        [.retry .takeRetryForPromotion "$e", .go 3 false, .retry .finishPromotion "$e", .go 4 false,
          .mark "$e" .missingAuthEvent, .go 5 false] s).map fun _ => s.shared.permanent "$e") = some true := by
    decide
  obtain ⟨s, hs, hrest⟩ := Option.bind_eq_some_iff.mp hsome
  obtain ⟨s', hs', hperm⟩ := Option.map_eq_some_iff.mp hrest
  exact ⟨s, s', hs, hs', permanent_rejection_kept (.of_runWhile _ .init hs) (.of_runWhile _ .init hs') hperm⟩

/-- A retry reads a rejection that may be retried, a check fails the event for good, and the
retry clears that. -/
theorem permanent_rejection_cleared : ∃ s s', Reaches step (fun _ _ => True) init s ∧
    step (.go 1 false) s = some s' ∧ (s.tasks[1]?).map (·.phase) = some (.clearing true) ∧
      s.shared.code "$e" = some .authCheckFailed ∧ s'.shared.code "$e" = none := by
  have hsome : ((runWhile step (fun _ _ => True)
      [.mark "$e" .prevEventsRejected, .go 0 false, .retry .takeRetry "$e", .go 1 false,
        .mark "$e" .authCheckFailed, .go 2 false] init).bind fun s => (step (.go 1 false) s).map fun s' =>
          ((s.tasks[1]?).map (·.phase), s.shared.code "$e", s'.shared.code "$e")) =
      some (some (.clearing true), some .authCheckFailed, none) := by
    decide
  obtain ⟨s, hs, hrest⟩ := Option.bind_eq_some_iff.mp hsome
  obtain ⟨s', hs', heq⟩ := Option.map_eq_some_iff.mp hrest
  simp only [Prod.mk.injEq] at heq
  exact ⟨s, s', .of_runWhile _ .init hs, hs', heq⟩

/-! ## Promotions -/

def Apart (s : State) : Prop :=
  ∀ t ∈ s.tasks, ∀ time, t.committed = some time → time < s.shared.clock ∧
    ∀ m, s.shared.rejections t.eventId = some m → m.code.isRetryable = false → time < m.since

theorem Apart.call (h : Apart s) (room : RoomId) (phase : Phase) : Apart (s.call room id phase) := by
  intro t ht time htime
  rcases List.mem_append.mp ht with hmem | hnew
  · exact h t hmem time htime
  · rw [List.mem_singleton.mp hnew] at htime
    cases htime

theorem Apart.go (h : Apart s) (hfree : Free Phase.isChecked s) {i : Nat} {fails : Bool} {t t' : Task}
    {shared : Shared} (hi : s.tasks[i]? = some t)
    (hgo : s.shared.go (s.locked t.roomId) fails t = some (shared, t')) :
    Apart { s with shared := shared, tasks := s.tasks.set i t' } := by
  obtain ⟨hid, hcases⟩ := Shared.go_cases hgo
  have hmem := List.mem_of_getElem? hi
  intro u hu time htime
  -- a task keeps its event, and its commit but for the step that commits
  have hold : (∃ v ∈ s.tasks, v.eventId = u.eventId ∧ v.committed = some time) ∨
      u = t' ∧ t.phase = .queued ∧ shared = s.shared.applyBatch t.eventId ∧ time = s.shared.clock := by
    rcases mem_set_of_some hi hu with rfl | ⟨j, -, hj⟩
    · rcases hcases with ⟨code, -, -, -, rfl⟩ | ⟨answer, -, -, rfl⟩ | ⟨hphase, rfl, rfl⟩ | hquiet
      · exact .inl ⟨t, hmem, rfl, htime⟩
      · exact .inl ⟨t, hmem, rfl, htime⟩
      · exact .inr ⟨rfl, hphase, rfl, (Option.some.inj htime).symm⟩
      · exact .inl ⟨t, hmem, hid.symm, hquiet.committed ▸ htime⟩
    · exact .inl ⟨u, List.mem_of_getElem? hj, rfl, htime⟩
  rcases hold with ⟨v, hv, hvid, hvtime⟩ | ⟨rfl, hphase, rfl, rfl⟩
  · obtain ⟨hclock, hlater⟩ := h v hv time hvtime
    rw [hvid] at hlater
    rcases hcases with ⟨code, -, -, rfl, -⟩ | ⟨answer, -, rfl, -⟩ | ⟨-, rfl, -⟩ | hquiet
    · have hsame : (s.shared.markEventRejected t.eventId code).clock = s.shared.clock := by
        unfold Shared.markEventRejected
        split
        · split <;> rfl
        · rfl
      refine ⟨hsame ▸ hclock, fun m hm hcode => ?_⟩
      rcases Shared.since_mark hm hcode with ⟨old, hold, hperm, hsince⟩ | hnow
      · exact hsince ▸ hlater old hold hperm
      · exact hnow ▸ hclock
    · refine ⟨hclock, fun m hm hcode => hlater m ?_ hcode⟩
      change Function.update s.shared.rejections t.eventId none u.eventId = some m at hm
      by_cases heq : u.eventId = t.eventId
      · rw [heq, Function.update_self] at hm
        cases hm
      · rwa [Function.update_of_ne heq] at hm
    · exact ⟨hclock.trans (Nat.lt_succ_self _), hlater⟩
    · refine ⟨hquiet.clock ▸ hclock, fun m hm hcode => hlater m ?_ hcode⟩
      exact hquiet.rejections ▸ hm
  · refine ⟨Nat.lt_succ_self _, fun m hm hcode => ?_⟩
    -- nothing permanent was recorded up to the commit
    have hchecked : t.phase.isChecked = true := by
      rw [hphase]
      rfl
    have hnot := hfree t hmem hchecked
    change s.shared.rejections u.eventId = some m at hm
    unfold Shared.permanent at hnot
    rw [← hid, hm] at hnot
    simp [hcode] at hnot

/-- As long as no permanent rejection of an event is recorded between the verdict check of
a promotion and the commit of its batch, no promoted event carries a permanent rejection
from before the commit. -/
theorem promotion_rejection_apart (hrun : Reaches step (MarksOutside Phase.isChecked) init s) :
    ∀ t ∈ s.tasks, ∀ time, t.committed = some time →
      ∀ m, s.shared.rejections t.eventId = some m → m.code.isRetryable = false → time < m.since := by
  have h : Free Phase.isChecked s ∧ Apart s := by
    refine Reaches.invariant (P := fun s => Free Phase.isChecked s ∧ Apart s) ⟨init_free _, ?_⟩ ?_ hrun
    · intro t ht
      cases ht
    · intro a s s' hP hok hs
      refine ⟨step_free guarded_checked hP.1 hok hs, ?_⟩
      cases a with
      | mark | retry | promote =>
        cases hs
        exact hP.2.call _ _
      | softFail id failed =>
        cases hs
        exact hP.2
      | go i fails =>
        obtain ⟨t, shared, t', ht, hgo, rfl⟩ := go_eq hs
        exact hP.2.go hP.1 ht hgo
  exact fun t ht time htime => (h.2 t ht time htime).2

/-- A rejection before the verdict check stops the promotion, one after the commit does not. -/
theorem promotion_rejection_apart_later : ∃ s,
    runWhile step (MarksOutside Phase.isChecked)
      ([.promote "!r" "$e", .mark "$e" .missingAuthEvent] ++ List.replicate 9 (.go 0 false) ++
        [.mark "$e" .authCheckFailed, .go 2 false, .go 0 false, .go 1 false]) init = some s ∧
      (∃ t ∈ s.tasks, t.committed = some 0) ∧ s.shared.permanent "$e" = true ∧
      ∀ m, s.shared.rejections "$e" = some m → m.code.isRetryable = false → 0 < m.since := by
  refine exists_of_map (fun s => ((s.tasks[0]?).map (fun t => (t.eventId, t.committed)), s.shared.permanent "$e"))
    (v := (some ("$e", some 0), true)) (by decide) fun s hs heq => ?_
  obtain ⟨htask, hperm⟩ := Prod.mk.inj heq
  obtain ⟨t, ht, hpair⟩ := Option.map_eq_some_iff.mp htask
  obtain ⟨hid, hcommitted⟩ := Prod.mk.inj hpair
  have hmem := List.mem_of_getElem? ht
  refine ⟨⟨t, hmem, hcommitted⟩, hperm, ?_⟩
  rw [← hid]
  exact promotion_rejection_apart (.of_runWhile _ .init hs) t hmem 0 hcommitted

/-- A check fails the event for good between the verdict check of its promotion and the
commit: when all is done the event is in the timeline and carries that rejection. -/
theorem promoted_and_rejected : ∃ s, Reaches step (fun _ _ => True) init s ∧
    (∀ t ∈ s.tasks, ∃ answer, t.phase = .returned answer) ∧
      ∃ t ∈ s.tasks, ∃ time, t.committed = some time ∧ s.shared.timeline t.eventId = true ∧
        ∃ m, s.shared.rejections t.eventId = some m ∧ m.code.isRetryable = false ∧ m.since ≤ time := by
  have hsome : (runWhile step (fun _ _ => True)
      ([Action.promote "!r" "$e"] ++ List.replicate 6 (Action.go 0 false) ++
        [Action.mark "$e" .authCheckFailed, Action.go 1 false] ++ List.replicate 5 (Action.go 0 false)) init).map
          (fun s => (s.tasks, s.shared.timeline "$e", s.shared.rejections "$e")) =
      some ([⟨"!r", "$e", .returned (.answered false), some 0⟩, ⟨"", "$e", .returned .marked, none⟩], true,
        some ⟨.authCheckFailed, 0⟩) := by
    decide
  obtain ⟨s, hs, heq⟩ := Option.map_eq_some_iff.mp hsome
  simp only [Prod.mk.injEq] at heq
  obtain ⟨htasks, htimeline, hmarker⟩ := heq
  refine ⟨s, .of_runWhile _ .init hs, ?_, ⟨"!r", "$e", .returned (.answered false), some 0⟩, ?_, 0, rfl, htimeline,
    _, hmarker, rfl, Nat.le_refl 0⟩
  · intro t ht
    rw [htasks] at ht
    rcases List.mem_cons.mp ht with rfl | ht
    · exact ⟨_, rfl⟩
    · rw [List.mem_singleton.mp ht]
      exact ⟨_, rfl⟩
  · rw [htasks]
    exact List.mem_cons_self

end State

end Congruent.Promotions
