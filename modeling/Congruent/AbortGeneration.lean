import Congruent.Sender

/-!
# Aborts are final

While a destination is aborted no table of it grows, so its tables are empty from
the return of the abort on. A transaction is bound to a generation no newer than
the one its rows were read under, so that it starts under that generation only.
-/

namespace Congruent

namespace Sender

variable {cfg : SenderConfig} {s s' : Sender} {a : SendAction}

/-! ## Tables of an aborted destination -/

structure Smaller (s s' : Sender) : Prop where
  queued : ∀ r ∈ s'.queued, r ∈ s.queued
  reliable : ∀ r ∈ s'.reliable, r ∈ s.reliable
  active : ∀ r ∈ s'.active, r ∈ s.active

theorem Smaller.of_tables (h : s'.tables = s.tables) : s.Smaller s' := by
  simp only [tables, Prod.mk.injEq] at h
  exact ⟨fun r => by rw [h.1]; exact id, fun r => by rw [h.2.1]; exact id, fun r => by rw [h.2.2]; exact id⟩

theorem Smaller.of_clear (t : SendTable) (h : s'.tables = (s.clear t).tables) : s.Smaller s' := by
  simp only [tables, Prod.mk.injEq] at h
  cases t <;> exact ⟨by simp [h, clear], by simp [h, clear], by simp [h, clear]⟩

theorem mem_of_mem_removeAll {t : RowTable} {rows : List Row} : ∀ r ∈ t.removeAll rows, r ∈ t :=
  fun _ hr => List.mem_of_mem_filter hr

theorem smaller_handleRequest (t : Tick) (m : Msg) (hab : s.aborted) : s.Smaller (s.handleRequest cfg t m) := by
  unfold handleRequest
  cases m with
  | event r =>
    simp only [if_pos hab]
    exact ⟨mem_of_mem_removeAll, mem_of_mem_removeAll, mem_of_mem_removeAll⟩
  | flush =>
    simp only [if_pos hab]
    exact .of_tables rfl
  | abortAck => exact .of_tables rfl

theorem smaller_work {t : Tick} (hfed : cfg.kind = .federation) (hab : s.aborted) (h : s.work cfg t = some s') :
    s.Smaller s' := by
  unfold work at h
  cases hp : s.phase with
  | flushReliable b =>
    cases hp ▸ h
    exact .of_tables (tables_of_shared (selectEvents_shared t _))
  | retry b =>
    rw [hp] at h
    simp only at h
    split at h <;> cases h
    · exact .of_tables (tables_of_shared (compose_shared b))
    · exact .of_tables (tables_of_shared (startSelected_shared _ _))
  | activate b | okActivate b =>
    -- the activation is refused
    rw [hp] at h
    simp only at h
    split at h <;> cases h
    · exact .of_tables rfl
    · next hact =>
      have := ((markAsActiveIfCurrent_eq_some hact).2 hfed).2
      simp [hab] at this
  | edus b =>
    cases hp ▸ h
    exact .of_tables (tables_of_shared (startSelected_shared _ _))
  | okScan b =>
    cases hp ▸ h
    exact .of_tables (tables_of_shared (startNext_shared _))
  | dropActive | okActive e | finishActive =>
    cases hp ▸ h
    exact .of_clear .active rfl
  | okReliable e | finishReliable =>
    cases hp ▸ h
    exact ⟨fun _ hr => hr, mem_of_mem_removeAll, fun _ hr => hr⟩
  | recovered rows selected | flushQueued e | okQueued e =>
    cases hp ▸ h
    exact .of_tables rfl
  | starting | idle | finishing => cases hp ▸ h

theorem step_smaller (hfed : cfg.kind = .federation) (hab : s.aborted) (h : s.step cfg a = some s') :
    s.Smaller s' := by
  cases a with
  | sendPdu id =>
    cases h
    rw [send, if_pos hab]
    exact .of_tables rfl
  | sendEdu json =>
    cases h
    rw [sendEdu, if_pos hab]
    exact .of_tables rfl
  | sendReliableEdu json =>
    obtain ⟨-, ⟨⟩⟩ := Option.ite_none_right_eq_some.mp h
    rw [sendEdu, if_pos hab]
    exact .of_tables rfl
  | startup netburst keep =>
    obtain ⟨-, ⟨⟩⟩ := Option.ite_none_right_eq_some.mp h
    exact ⟨fun _ hr => hr, fun _ hr => hr, fun _ hr => List.mem_of_mem_take hr⟩
  | request t =>
    obtain ⟨m, ms, -, -, rfl⟩ := request_cases h
    obtain ⟨hq, hr, ha⟩ : Smaller { s with channel := ms } _ := smaller_handleRequest t m hab
    exact ⟨hq, hr, ha⟩
  | work t => exact smaller_work hfed hab h
  | response i =>
    obtain ⟨-, h⟩ := Option.ite_none_right_eq_some.mp h
    obtain ⟨T, ok, -, -, rfl⟩ := takeDone_cases h
    exact .of_tables (tables_of_shared (handleResponse_shared _ _))
  | finishResponse i =>
    obtain ⟨-, h⟩ := Option.ite_none_right_eq_some.mp h
    obtain ⟨T, ok, -, -, rfl⟩ := takeDone_cases h
    exact .of_tables (tables_of_shared (finishResponse_shared _ _))
  | transmit i | start i | cancel i =>
    obtain ⟨T, t, -, -, rfl⟩ := advance_cases h
    exact .of_tables rfl
  | answer i ok =>
    obtain ⟨T, -, rfl⟩ := answered_cases h
    exact .of_tables rfl
  | cleanupActive =>
    obtain ⟨-, ⟨⟩⟩ := Option.ite_none_right_eq_some.mp h
    exact .of_clear .active rfl
  | cleanupQueued =>
    obtain ⟨-, ⟨⟩⟩ := Option.ite_none_right_eq_some.mp h
    exact .of_clear .queued rfl
  | clear t =>
    cases h
    exact .of_clear t rfl
  | abortNext =>
    simp only [step, abortNext] at h
    split at h <;> cases h
    · exact .of_tables rfl
    · exact .of_clear .active rfl
    · exact .of_clear .queued rfl
    · exact .of_clear .reliable rfl
    · exact .of_clear .active rfl
  | startupSkip | close | abort | resume =>
    obtain ⟨-, ⟨⟩⟩ := Option.ite_none_right_eq_some.mp h
    exact .of_tables rfl
  | flush | restart =>
    cases h
    exact .of_tables rfl

/-! ## The sweeps -/

def Empty (s : Sender) : Prop := s.queued = [] ∧ s.active = [] ∧ s.reliable = []

theorem Empty.smaller (h : s.Empty) (hsub : s.Smaller s') : s'.Empty :=
  ⟨List.eq_nil_of_subset_nil (h.1 ▸ hsub.queued), List.eq_nil_of_subset_nil (h.2.1 ▸ hsub.active),
    List.eq_nil_of_subset_nil (h.2.2 ▸ hsub.reliable)⟩

def SweptBy (s : Sender) : AbortTask → Prop
  | .idle | .waiting | .clearActive => True
  | .clearQueued => s.active = []
  | .clearReliable => s.active = [] ∧ s.queued = []
  | .clearActiveAgain => s.active = [] ∧ s.queued = [] ∧ s.reliable = []

theorem SweptBy.smaller {task : AbortTask} (h : s.SweptBy task) (hsub : s.Smaller s') : s'.SweptBy task := by
  have hq : s.queued = [] → s'.queued = [] := fun h => List.eq_nil_of_subset_nil (h ▸ hsub.queued)
  have ha : s.active = [] → s'.active = [] := fun h => List.eq_nil_of_subset_nil (h ▸ hsub.active)
  have hr : s.reliable = [] → s'.reliable = [] := fun h => List.eq_nil_of_subset_nil (h ▸ hsub.reliable)
  cases task with
  | clearQueued => exact ha h
  | clearReliable => exact ⟨ha h.1, hq h.2⟩
  | clearActiveAgain => exact ⟨ha h.1, hq h.2.1, hr h.2.2⟩
  | _ => trivial

/-- The abort state of a run. Only federation destinations are aborted. -/
structure Swept (cfg : SenderConfig) (s : Sender) : Prop where
  fed : s.aborted → cfg.kind = .federation
  busy : s.task ≠ .idle → s.aborted
  stage : s.SweptBy s.task
  returned : s.returned → s.aborted ∧ s.Empty
  rest : s.aborted → s.task = .idle → s.returned

theorem Swept.next (hs : s.Swept cfg) (h : s.abortNext = some s') : s'.Swept cfg := by
  have hab : s.aborted := by
    refine hs.busy fun ht => ?_
    simp [abortNext, ht] at h
  have hfed := hs.fed hab
  have hst := hs.stage
  unfold abortNext at h
  cases ht : s.task with
  | idle => simp [ht] at h
  | waiting =>
    cases ht ▸ h
    exact ⟨fun _ => hfed, fun _ => hab, trivial, hs.returned, fun _ e => by cases e⟩
  | clearActive =>
    cases ht ▸ h
    exact ⟨fun _ => hfed, fun _ => hab, rfl, fun hr => ⟨hab, (hs.returned hr).2.smaller (.of_clear .active rfl)⟩,
      fun _ e => by cases e⟩
  | clearQueued =>
    rw [ht] at hst
    cases ht ▸ h
    exact ⟨fun _ => hfed, fun _ => hab, ⟨hst, rfl⟩,
      fun hr => ⟨hab, (hs.returned hr).2.smaller (.of_clear .queued rfl)⟩, fun _ e => by cases e⟩
  | clearReliable =>
    rw [ht] at hst
    cases ht ▸ h
    exact ⟨fun _ => hfed, fun _ => hab, ⟨hst.1, hst.2, rfl⟩,
      fun hr => ⟨hab, (hs.returned hr).2.smaller (.of_clear .reliable rfl)⟩, fun _ e => by cases e⟩
  | clearActiveAgain =>
    rw [ht] at hst
    cases ht ▸ h
    exact ⟨fun _ => hfed, fun _ => hab, trivial, fun _ => ⟨hab, hst.2.1, rfl, hst.2.2⟩, fun _ _ => rfl⟩

theorem Swept.step (hs : s.Swept cfg) (h : s.step cfg a = some s') : s'.Swept cfg := by
  by_cases hg : a.gates
  · cases a with
    | abort =>
      obtain ⟨⟨hfed, -⟩, ⟨⟩⟩ := Option.ite_none_right_eq_some.mp h
      exact ⟨fun _ => hfed, fun _ => rfl, trivial, fun hr => ⟨rfl, (hs.returned hr).2⟩, fun _ ht => by cases ht⟩
    | abortNext => exact hs.next h
    | resume =>
      obtain ⟨ht, ⟨⟩⟩ := Option.ite_none_right_eq_some.mp h
      refine ⟨fun hab => ?_, fun hn => absurd ht hn, hs.stage, fun hr => ?_, fun hab => ?_⟩
      · cases hab
      · cases hr
      · cases hab
    | restart =>
      cases h
      refine ⟨fun hab => ?_, fun hn => absurd rfl hn, trivial, fun hr => ?_, fun hab => ?_⟩
      · cases hab
      · cases hr
      · cases hab
    | _ => cases hg
  · have hgate := step_gate h (by simpa using hg)
    simp only [gate, Prod.mk.injEq] at hgate
    obtain ⟨hab, -, ht, hret⟩ := hgate
    have hsub : s.aborted → s.Smaller s' := fun hab => step_smaller (hs.fed hab) hab h
    refine ⟨hab ▸ hs.fed, ht ▸ hab ▸ hs.busy, ?_, ?_, hab ▸ ht ▸ hret ▸ hs.rest⟩
    · rw [ht]
      by_cases hi : s.task = .idle
      · rw [hi]
        trivial
      · exact hs.stage.smaller (hsub (hs.busy hi))
    · intro hr
      obtain ⟨hab', hemp⟩ := hs.returned (hret ▸ hr)
      exact ⟨hab ▸ hab', hemp.smaller (hsub hab')⟩

/-! ## Generations of selected rows -/

/-- Rows read under a generation up to `n`, bound to no newer one. -/
def Fresh (cfg : SenderConfig) (n : Nat) (epoch : Option Nat) (selected : Nat) : Prop :=
  selected ≤ n ∧ (cfg.kind = .federation → ∃ c ≤ selected, epoch = some c)

def FreshPhase (cfg : SenderConfig) (n : Nat) : Phase → Prop
  | .recovered _ selected => selected = n
  | .flushQueued e | .okReliable e | .okActive e | .okQueued e => Fresh cfg n e n
  | .flushReliable b | .retry b | .activate b | .edus b | .okScan b | .okActivate b =>
    Fresh cfg n b.epoch b.selected
  | _ => True

structure FreshAt (cfg : SenderConfig) (n : Nat) (s : Sender) : Prop where
  flight : ∀ T ∈ s.flight, Fresh cfg n T.epoch T.selected
  phase : FreshPhase cfg n s.phase

variable {n : Nat}

theorem fresh_newEpoch : Fresh cfg s.epoch (s.newEpoch cfg) s.epoch :=
  ⟨Nat.le_refl _, fun hfed => ⟨s.epoch, Nat.le_refl _, by simp [newEpoch, hfed]⟩⟩

theorem FreshAt.send {epoch : Option Nat} {rows : List Row} {edus selected : Nat}
    (hf : ∀ T ∈ s.flight, Fresh cfg n T.epoch T.selected) (hp : FreshPhase cfg n s.phase)
    (hs : Fresh cfg n epoch selected) : FreshAt cfg n (s.sendEvents cfg epoch rows edus selected) := by
  refine ⟨fun T hT => ?_, hp⟩
  rcases List.mem_append.mp hT with hT | hT
  · exact hf T hT
  · obtain rfl := List.mem_singleton.mp hT
    refine ⟨hs.1, fun hfed => ?_⟩
    obtain ⟨c, hc, rfl⟩ := hs.2 hfed
    exact ⟨c, hc, by simp [hfed]⟩

theorem FreshAt.startSelected {b : Selection} {edus : Nat} (hf : ∀ T ∈ s.flight, Fresh cfg n T.epoch T.selected)
    (hb : Fresh cfg n b.epoch b.selected) : FreshAt cfg n (s.startSelected cfg b edus) := by
  unfold Sender.startSelected
  split
  · exact ⟨hf, trivial⟩
  · split
    · exact ⟨hf, trivial⟩
    · exact .send hf trivial hb

theorem FreshAt.compose {b : Selection} (hf : ∀ T ∈ s.flight, Fresh cfg n T.epoch T.selected)
    (hb : Fresh cfg n b.epoch b.selected) : FreshAt cfg n (s.compose cfg b) := by
  unfold Sender.compose
  split
  · exact ⟨hf, hb⟩
  · split
    · exact ⟨hf, hb⟩
    · exact .startSelected hf hb

theorem FreshAt.selectEvents {t : Tick} {b : Selection} (hf : ∀ T ∈ s.flight, Fresh cfg n T.epoch T.selected)
    (hb : Fresh cfg n b.epoch b.selected) : FreshAt cfg n (s.selectEvents cfg t b) := by
  unfold Sender.selectEvents
  split
  · exact ⟨hf, trivial⟩
  · exact ⟨hf, hb⟩
  · exact .compose hf hb

theorem FreshAt.work {t : Tick} (hs : FreshAt cfg s.epoch s) (h : s.work cfg t = some s') :
    FreshAt cfg s.epoch s' := by
  obtain ⟨hf, hph⟩ := hs
  unfold Sender.work at h
  cases hp : s.phase with
  | recovered rows selected =>
    rw [hp] at hph
    cases hp ▸ h
    refine ⟨fun T hT => ?_, trivial⟩
    rcases List.mem_append.mp hT with hT | hT
    · exact hf T hT
    · obtain rfl := List.mem_singleton.mp hT
      exact ⟨hph.le, fun hfed => ⟨s.epoch, hph.ge, by simp [hfed]⟩⟩
  | flushQueued e =>
    rw [hp] at hph
    cases hp ▸ h
    exact ⟨hf, hph⟩
  | flushReliable b =>
    rw [hp] at hph
    cases hp ▸ h
    exact .selectEvents hf hph
  | retry b =>
    rw [hp] at h hph
    simp only at h
    split at h <;> cases h
    · exact .compose hf hph
    · obtain ⟨hle, he⟩ := hph
      refine .startSelected hf ⟨Nat.le_refl _, fun hfed => ?_⟩
      obtain ⟨c, hc, he⟩ := he hfed
      exact ⟨c, hc.trans hle, he⟩
  | activate b =>
    rw [hp] at h hph
    simp only at h
    split at h <;> cases h
    · exact ⟨hf, trivial⟩
    · next hact =>
      rw [(markAsActiveIfCurrent_eq_some hact).1]
      split
      · exact ⟨hf, hph⟩
      · exact .startSelected hf hph
  | edus b =>
    rw [hp] at hph
    cases hp ▸ h
    exact .startSelected hf hph
  | okScan b =>
    rw [hp] at hph
    cases hp ▸ h
    unfold startNext
    split
    · exact ⟨hf, hph⟩
    · split <;> exact ⟨hf, trivial⟩
  | okActivate b =>
    rw [hp] at h hph
    simp only at h
    split at h <;> cases h
    · exact ⟨hf, trivial⟩
    · next hact =>
      rw [(markAsActiveIfCurrent_eq_some hact).1]
      exact .send hf trivial hph
  | okReliable e | okActive e | okQueued e =>
    rw [hp] at hph
    cases hp ▸ h
    exact ⟨hf, hph⟩
  | dropActive | finishReliable | finishActive =>
    cases hp ▸ h
    exact ⟨hf, trivial⟩
  | starting | idle | finishing => cases hp ▸ h

theorem Fresh.mono {m : Nat} {e : Option Nat} {selected : Nat} (hnm : n ≤ m) (h : Fresh cfg n e selected) :
    Fresh cfg m e selected :=
  ⟨h.1.trans hnm, h.2⟩

theorem Fresh.now {e : Option Nat} {selected : Nat} (h : Fresh cfg n e selected) : Fresh cfg n e n :=
  ⟨Nat.le_refl n, fun hfed => (h.2 hfed).imp fun _ hc => ⟨hc.1.trans h.1, hc.2⟩⟩

/-- No abort comes between the reading of the rows at start-up and their transaction. -/
def BoundAtStart (a : SendAction) (s : Sender) : Prop := s.phase.recovers → a ≠ .abort

instance (a : SendAction) (s : Sender) : Decidable (BoundAtStart a s) := inferInstanceAs (Decidable (_ → _))

theorem FreshAt.abort (hs : FreshAt cfg s.epoch s) (hok : BoundAtStart .abort s) :
    FreshAt cfg (nextEpoch s.epoch) s.abortDestination := by
  have hle := le_nextEpoch s.epoch
  refine ⟨fun T hT => (hs.flight T hT).mono hle, ?_⟩
  have hph := hs.phase
  change FreshPhase cfg (nextEpoch s.epoch) s.phase
  cases hp : s.phase with
  | recovered rows selected => exact absurd rfl (hok (hp ▸ rfl))
  | flushQueued e | okReliable e | okActive e | okQueued e =>
    rw [hp] at hph
    exact (Fresh.mono hle hph).now
  | flushReliable b | retry b | activate b | edus b | okScan b | okActivate b =>
    rw [hp] at hph
    exact Fresh.mono hle hph
  | _ => trivial

theorem FreshAt.handleRequest {t : Tick} {m : Msg} (hf : ∀ T ∈ s.flight, Fresh cfg s.epoch T.epoch T.selected)
    (hp : s.phase = .idle) : FreshAt cfg s.epoch (s.handleRequest cfg t m) := by
  unfold Sender.handleRequest
  have hidle : FreshPhase cfg s.epoch s.phase := hp ▸ trivial
  cases m with
  | event r =>
    simp only
    split
    · exact ⟨hf, hidle⟩
    · exact .selectEvents hf fresh_newEpoch
  | flush =>
    simp only
    split
    · exact ⟨hf, hidle⟩
    · exact ⟨hf, fresh_newEpoch⟩
  | abortAck => exact ⟨hf, hidle⟩

theorem FreshAt.handleResponse {epoch : Option Nat} {ok : Bool} (hs : FreshAt cfg n s) (he : Fresh cfg n epoch n) :
    FreshAt cfg n (s.handleResponse cfg epoch ok) := by
  obtain ⟨hf, hph⟩ := hs
  unfold Sender.handleResponse handleResponseErr
  split
  · exact ⟨hf, hph⟩
  · split
    · exact ⟨hf, trivial⟩
    · split
      · exact ⟨hf, he⟩
      · split <;> exact ⟨hf, hph⟩

theorem FreshAt.advance {i : Nat} {T : Txn} (hs : FreshAt cfg n s) (hT : s.flight[i]? = some T) (t : Travel) :
    ∀ T' ∈ s.flight.set i { T with travel := t }, Fresh cfg n T'.epoch T'.selected := by
  intro T' hT'
  rcases List.mem_or_eq_of_mem_set hT' with hT' | rfl
  · exact hs.flight T' hT'
  · exact hs.flight T (List.mem_of_getElem? hT)

theorem FreshAt.of_own (hs : FreshAt cfg n s) (h : s'.own = s.own) : FreshAt cfg n s' := by
  simp only [own, Prod.mk.injEq] at h
  obtain ⟨-, hp, hf⟩ := h
  exact ⟨hf ▸ hs.flight, hp ▸ hs.phase⟩

/-- The steps of the worker and of its futures, and a new process. -/
theorem FreshAt.worker_step (hs : FreshAt cfg s.epoch s) (ha : a.outside = false) (h : s.step cfg a = some s') :
    FreshAt cfg s.epoch s' := by
  cases a with
  | restart =>
    cases h
    exact ⟨List.forall_mem_nil _, trivial⟩
  | request t =>
    obtain ⟨m, ms, hp, -, rfl⟩ := request_cases h
    exact handleRequest (s := { s with channel := ms }) hs.flight hp
  | work t => exact hs.work h
  | response i =>
    obtain ⟨-, h⟩ := Option.ite_none_right_eq_some.mp h
    obtain ⟨T, ok, hT, -, rfl⟩ := takeDone_cases h
    exact handleResponse ⟨fun T hT => hs.flight T (List.mem_of_mem_eraseIdx hT), hs.phase⟩
      (hs.flight T (List.mem_of_getElem? hT)).now
  | finishResponse i =>
    obtain ⟨-, h⟩ := Option.ite_none_right_eq_some.mp h
    obtain ⟨T, ok, hT, -, rfl⟩ := takeDone_cases h
    have hf : ∀ T ∈ s.flight.eraseIdx i, Fresh cfg s.epoch T.epoch T.selected :=
      fun T hT => hs.flight T (List.mem_of_mem_eraseIdx hT)
    unfold Sender.finishResponse
    split
    · exact ⟨hf, trivial⟩
    · exact ⟨hf, hs.phase⟩
  | transmit i | start i | cancel i =>
    obtain ⟨T, t, hT, -, rfl⟩ := advance_cases h
    exact ⟨hs.advance hT t, hs.phase⟩
  | answer i ok =>
    obtain ⟨T, hT, rfl⟩ := answered_cases h
    exact ⟨hs.advance hT _, hs.phase⟩
  | startup netburst keep =>
    obtain ⟨-, ⟨⟩⟩ := Option.ite_none_right_eq_some.mp h
    refine ⟨hs.flight, ?_⟩
    unfold startupNetburst
    simp only
    split
    · rfl
    · trivial
  | startupSkip | close =>
    obtain ⟨-, ⟨⟩⟩ := Option.ite_none_right_eq_some.mp h
    exact ⟨hs.flight, trivial⟩
  | _ => cases ha

/-- What a run in which no abort meets the start-up keeps. -/
structure Selected (cfg : SenderConfig) (s : Sender) : Prop where
  swept : s.Swept cfg
  other : cfg.kind ≠ .federation → s.epoch = 0
  fresh : FreshAt cfg s.epoch s

theorem selected_init : Selected cfg {} :=
  ⟨⟨nofun, nofun, trivial, nofun, nofun⟩, fun _ => rfl, List.forall_mem_nil _, trivial⟩

theorem Selected.step (hs : s.Selected cfg) (hok : BoundAtStart a s) (h : s.step cfg a = some s') :
    s'.Selected cfg := by
  suffices hrest : (cfg.kind ≠ .federation → s'.epoch = 0) ∧ FreshAt cfg s'.epoch s' from
    ⟨hs.swept.step h, hrest.1, hrest.2⟩
  by_cases hg : a.gates
  · cases a with
    | abort =>
      obtain ⟨⟨hfed, -⟩, ⟨⟩⟩ := Option.ite_none_right_eq_some.mp h
      exact ⟨fun hn => absurd hfed hn, hs.fresh.abort hok⟩
    | abortNext =>
      have hepoch : s'.epoch = s.epoch := by
        simp only [Sender.step, abortNext] at h
        split at h <;> cases h <;> rfl
      rw [hepoch]
      exact ⟨hs.other, hs.fresh.of_own (step_own h rfl)⟩
    | resume =>
      have hown := step_own h rfl
      obtain ⟨-, ⟨⟩⟩ := Option.ite_none_right_eq_some.mp h
      exact ⟨hs.other, hs.fresh.of_own hown⟩
    | restart =>
      cases h
      exact ⟨fun _ => rfl, List.forall_mem_nil _, trivial⟩
    | _ => cases hg
  · have hgate := step_gate h (by simpa using hg)
    simp only [gate, Prod.mk.injEq] at hgate
    rw [hgate.2.1]
    refine ⟨hs.other, ?_⟩
    by_cases ho : a.outside
    · exact hs.fresh.of_own (step_own h ho)
    · exact hs.fresh.worker_step (by simpa using ho) h

/-- A transaction goes past a check of its generation. -/
def Starts (cfg : SenderConfig) (s : Sender) (T : Txn) : Prop :=
  transmit cfg s T = some .building ∨ start cfg s T = some .sent

instance (T : Txn) : Decidable (s.Starts cfg T) := inferInstanceAs (Decidable (_ ∨ _))

theorem Starts.not_refused {T : Txn} (h : s.Starts cfg T) (hfed : cfg.kind = .federation) : T.epoch =
    some s.epoch := by
  have hr : s.refuses T = false := by
    rcases h with h | h
    · unfold transmit at h
      by_contra hr
      simp_all
    · unfold start at h
      by_contra hr
      simp_all
  simp only [refuses, Bool.or_eq_false_iff, bne_eq_false_iff_eq] at hr
  exact hr.2

end Sender

/-- In every run in which no abort comes between the reading of the active rows at
start-up and the building of their transaction: a transaction starts only under the
generation its rows were read under, and from the return of an abort to the resume
no table has a row. -/
theorem abort_final {cfg : SenderConfig} {s : Sender}
    (h : Reaches (Sender.step cfg) Sender.BoundAtStart {} s) :
    (∀ T ∈ s.flight, s.Starts cfg T → T.selected = s.epoch) ∧
      (s.returned → s.queued = [] ∧ s.active = [] ∧ s.reliable = []) := by
  have hs : s.Selected cfg := h.invariant Sender.selected_init fun _ _ _ hs hok h => hs.step hok h
  refine ⟨fun T hT hstart => ?_, fun hr => (hs.swept.returned hr).2⟩
  obtain ⟨hle, hbound⟩ := hs.fresh.flight T hT
  by_cases hfed : cfg.kind = .federation
  · obtain ⟨c, hc, he⟩ := hbound hfed
    have hcur : T.epoch = some s.epoch := hstart.not_refused hfed
    obtain rfl : c = s.epoch := Option.some.inj (he.symm.trans hcur)
    exact Nat.le_antisymm hle hc
  · have := hs.other hfed
    omega

open SendAction in
/-- A PDU is left active by an earlier process; its row is read at start-up, an
abort and a resume follow. -/
def abortAtStart : List SendAction :=
  [startup true 10, sendPdu [1, 1], request {}, work {}, work {}, restart, startup true 10, abort,
    work {}, request {},
    abortNext, abortNext, abortNext, abortNext, abortNext, resume, transmit 0]

theorem recovered_row_starts_after_abort :
    ¬ ∀ s, Reaches (Sender.step .plain) (fun _ _ => True) {} s →
      ∀ T ∈ s.flight, s.Starts .plain T → T.selected = s.epoch := by
  intro h
  let T : Txn := ⟨some 1, [.pdu [1, 1]], 0, 0, .building⟩
  have hrun : Reaches (Sender.step .plain) (fun _ _ => True) {} { epoch := 1, flight := [T], phase := .idle } :=
    Reaches.of_runWhile abortAtStart .init (by decide)
  have heq := h _ hrun T (by simp) (by decide)
  simp [T] at heq

/-- An abort after start-up: the aborted PDU is not sent, the tables are empty. -/
theorem abort_final_swept :
    ∃ s, Reaches (Sender.step .plain) Sender.BoundAtStart {} s ∧ s.flight ≠ [] ∧
      (∀ T ∈ s.flight, s.Starts .plain T → T.selected = s.epoch) ∧
      s.returned ∧ s.queued = [] ∧ s.active = [] ∧ s.reliable = [] := by
  have hrun : Reaches (Sender.step .plain) Sender.BoundAtStart {}
      { epoch := 1, aborted := true, returned := true, flight := [⟨some 0, [.pdu [1, 1]], 0, 0, .waiting⟩],
        phase := .idle } :=
    Reaches.of_runWhile [.startup true 10, .sendPdu [1, 1], .request {}, .work {}, .work {}, .abort, .request {},
      .abortNext, .abortNext, .abortNext, .abortNext, .abortNext] .init (by decide)
  obtain ⟨hstart, hempty⟩ := abort_final hrun
  exact ⟨_, hrun, by simp, hstart, rfl, hempty rfl⟩

end Congruent
