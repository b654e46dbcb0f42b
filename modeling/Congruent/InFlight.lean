import Mathlib.Data.List.Perm.Basic
import Congruent.AbortGeneration

/-!
# Transactions in flight

While the worker is at rest, a destination that counts as busy has exactly one
transaction of its generation in flight, unless an abort message waits for the
worker.
-/

namespace Congruent

def TransactionStatus.isBusy : TransactionStatus → Bool
  | .running | .retrying _ => true
  | _ => false

namespace Sender

variable {cfg : SenderConfig} {s s' : Sender} {a : SendAction}

def busy (s : Sender) : Bool := s.status.any TransactionStatus.isBusy

/-- An abort message is queued to the worker. -/
def acking (s : Sender) : Bool := s.channel.contains .abortAck

def epochs (s : Sender) : List (Option Nat) := s.flight.map Txn.epoch

/-- How many transactions of the current generation are in flight. -/
def live (s : Sender) : Nat := s.epochs.countP s.isCurrent

/-! ## The invariant -/

def Bound (cfg : SenderConfig) (n : Nat) (epoch : Option Nat) : Prop :=
  (cfg.kind = .federation → ∃ c ≤ n, epoch = some c) ∧ (cfg.kind ≠ .federation → epoch = none)

/-- A handler with work of generation `epoch`: current, or overtaken by an abort
whose message is still queued. -/
structure Engaged (cfg : SenderConfig) (s : Sender) (epoch : Option Nat) : Prop where
  bound : Bound cfg s.epoch epoch
  aborted : s.aborted → s.acking ∧ s.isCurrent epoch = false
  current : s.aborted = false → s.isCurrent epoch

def Matched (s : Sender) : Prop := s.busy ↔ s.live = 1

def InPhase (cfg : SenderConfig) (s : Sender) : Phase → Prop
  | .starting | .recovered _ _ => s.epochs = [] ∧ s.status = none ∧ (s.aborted → s.acking)
  | .idle => (s.aborted → s.acking = false → s.busy = false) ∧ (s.aborted = false → s.Matched)
  | .flushQueued e => s.Engaged cfg e ∧ (s.aborted = false → s.Matched)
  | .flushReliable b => s.Engaged cfg b.epoch ∧ (s.aborted = false → s.Matched)
  | .retry b | .activate b | .edus b => s.Engaged cfg b.epoch ∧ s.live = 0 ∧ s.busy
  | .okReliable e | .okActive e | .okQueued e => s.Engaged cfg e ∧ s.live = 0
  | .okScan b | .okActivate b => s.Engaged cfg b.epoch ∧ s.live = 0
  | .dropActive => False
  | .finishing | .finishReliable | .finishActive => True

/-- What holds at any point of a handler. -/
structure Bounded (cfg : SenderConfig) (s : Sender) : Prop where
  bound : ∀ e ∈ s.epochs, Bound cfg s.epoch e
  ack : s.acking → s.aborted
  fed : s.aborted → cfg.kind = .federation
  quiet : s.aborted → s.live = 0
  one : s.live ≤ 1

structure InFlight (cfg : SenderConfig) (s : Sender) : Prop extends s.Bounded cfg where
  phase : s.InPhase cfg s.phase

/-- What the invariant reads. -/
def view (s : Sender) : List (Option Nat) × Option TransactionStatus × Bool × Nat × Bool :=
  (s.epochs, s.status, s.aborted, s.epoch, s.acking)

theorem isCurrent_congr (h : s'.epoch = s.epoch) : s'.isCurrent = s.isCurrent := by
  funext e
  simp [isCurrent, h]

theorem live_congr (he : s'.epochs = s.epochs) (h : s'.epoch = s.epoch) : s'.live = s.live := by
  rw [live, live, he, isCurrent_congr h]

theorem Bounded.congr (hs : s.Bounded cfg) (h : s'.view = s.view) : s'.Bounded cfg := by
  simp only [view, Prod.mk.injEq] at h
  obtain ⟨he, -, hab, hep, hack⟩ := h
  have hlive := live_congr he hep
  exact ⟨he ▸ hep ▸ hs.bound, hack ▸ hab ▸ hs.ack, hab ▸ hs.fed, hab ▸ hlive ▸ hs.quiet, hlive ▸ hs.one⟩

theorem InPhase.congr {p : Phase} (hs : s.InPhase cfg p) (h : s'.view = s.view) : s'.InPhase cfg p := by
  simp only [view, Prod.mk.injEq] at h
  obtain ⟨he, hst, hab, hep, hack⟩ := h
  have hcur := isCurrent_congr hep
  have hlive := live_congr he hep
  have hbusy : s'.busy = s.busy := by simp [busy, hst]
  have hmat : s.Matched → s'.Matched := by simp [Matched, hbusy, hlive]
  have heng : ∀ e, s.Engaged cfg e → s'.Engaged cfg e := fun e he =>
    ⟨hep ▸ he.bound, by rw [hab, hack, hcur]; exact he.aborted, by rw [hab, hcur]; exact he.current⟩
  cases p with
  | starting | recovered =>
    exact ⟨he ▸ hs.1, hst ▸ hs.2.1, hab ▸ hack ▸ hs.2.2⟩
  | idle => exact ⟨by rw [hab, hack, hbusy]; exact hs.1, fun ha => hmat (hs.2 (hab ▸ ha))⟩
  | flushQueued e | flushReliable b => exact ⟨heng _ hs.1, fun ha => hmat (hs.2 (hab ▸ ha))⟩
  | retry b | activate b | edus b => exact ⟨heng _ hs.1, hlive ▸ hs.2.1, hbusy ▸ hs.2.2⟩
  | okReliable e | okActive e | okQueued e | okScan b | okActivate b => exact ⟨heng _ hs.1, hlive ▸ hs.2⟩
  | dropActive => exact hs
  | finishing | finishReliable | finishActive => trivial

theorem InFlight.congr (hs : s.InFlight cfg) (h : s'.view = s.view) (hp : s'.phase = s.phase) : s'.InFlight cfg :=
  ⟨hs.toBounded.congr h, hp ▸ hs.phase.congr h⟩

/-! ## Handlers -/

theorem Bounded.idle (st : Option TransactionStatus) (hb : s.Bounded cfg) (h0 : s.live = 0)
    (hst : st.any TransactionStatus.isBusy = false) : InFlight cfg { s with status := st, phase := .idle } := by
  refine ⟨⟨hb.bound, hb.ack, hb.fed, hb.quiet, hb.one⟩, fun _ _ => hst, fun _ => ?_⟩
  have h0' : live { s with status := st, phase := .idle } = 0 := h0
  simp [Matched, busy, hst, h0']

theorem Engaged.of_newEpoch (hab : s.aborted = false) : s.Engaged cfg (s.newEpoch cfg) := by
  unfold newEpoch
  split
  · next hfed =>
    exact ⟨⟨fun _ => ⟨_, Nat.le_refl _, rfl⟩, fun hn => absurd hfed hn⟩, by simp [hab], by simp [isCurrent]⟩
  · next hfed =>
    exact ⟨⟨fun hf => absurd hf hfed, fun _ => rfl⟩, by simp [hab], by simp [isCurrent]⟩

theorem Bounded.push {e : Option Nat} {rows : List Row} {edus selected : Nat}
    (st : Option TransactionStatus) (hb : s.Bounded cfg) (h0 : s.live = 0) (hab : s.aborted = false)
    (he : e = none ∨ s.Engaged cfg e) (hst : st.any TransactionStatus.isBusy) :
    InFlight cfg (({ s with status := st, phase := .idle }).sendEvents cfg e rows edus selected) := by
  have hcap : (if cfg.kind = .federation then some (e.getD s.epoch) else none) = s.newEpoch cfg := by
    unfold newEpoch
    split
    · next hfed =>
      rcases he with rfl | he
      · rfl
      · obtain ⟨c, -, rfl⟩ := he.bound.1 hfed
        have hcur := he.current hab
        simp only [isCurrent, Option.all_some, beq_iff_eq] at hcur
        simp [hcur]
    · rfl
  have heng : s.Engaged cfg (s.newEpoch cfg) := .of_newEpoch hab
  set s₁ := ({ s with status := st, phase := .idle }).sendEvents cfg e rows edus selected with hs₁
  have hep : s₁.epochs = s.epochs ++ [s.newEpoch cfg] := by
    simp [hs₁, epochs, sendEvents, hcap]
  have hlive : s₁.live = 1 := by
    have hcount : s₁.live = s.live + if s.isCurrent (s.newEpoch cfg) then 1 else 0 := by
      rw [live, hep, List.countP_append, List.countP_singleton]
      rfl
    rw [hcount, h0, if_pos (heng.current hab)]
  refine ⟨⟨?_, hb.ack, hb.fed, fun ha => ?_, hlive.le⟩, fun ha => ?_, fun _ => ?_⟩
  · intro e' he'
    rw [hep] at he'
    rcases List.mem_append.mp he' with he' | he'
    · exact hb.bound e' he'
    · rw [List.mem_singleton.mp he']
      exact heng.bound
  · exact absurd (hab.symm.trans ha) (by simp)
  · exact absurd (hab.symm.trans ha) (by simp)
  · have hbusy : s₁.busy := by simpa [busy, hs₁, sendEvents] using hst
    exact ⟨fun _ => hlive, fun _ => hbusy⟩

theorem selectEventsCurrent_spec (cfg : SenderConfig) (t : Tick) (hasPdu : Bool) (st : Option TransactionStatus) :
    match selectEventsCurrent cfg t hasPdu st with
    | (false, _, st') => st = some st'
    | (true, _, st') => st.any TransactionStatus.isBusy = false ∧ st'.isBusy := by
  cases st with
  | none => exact ⟨rfl, rfl⟩
  | some st =>
    cases st with
    | running | retrying n => rfl
    | failed n | cooldown =>
      simp only [selectEventsCurrent]
      split <;> simp_all [TransactionStatus.isBusy] <;> grind

variable {b : Selection}

theorem InFlight.startSelected {edus : Nat} (hb : s.Bounded cfg) (he : s.Engaged cfg b.epoch) (h0 : s.live = 0)
    (hbusy : s.busy) : (s.startSelected cfg b edus).InFlight cfg := by
  unfold Sender.startSelected
  split
  · exact hb.idle _ h0 rfl
  · next hcur =>
    split
    · exact hb.idle _ h0 rfl
    · have hab : s.aborted = false := by simp_all
      exact hb.push s.status h0 hab (.inr he) hbusy

theorem InFlight.compose (hb : s.Bounded cfg) (he : s.Engaged cfg b.epoch) (h0 : s.live = 0)
    (hbusy : s.busy) : (s.compose cfg b).InFlight cfg := by
  unfold Sender.compose
  split
  · exact ⟨hb.congr rfl, InPhase.congr (p := .activate b) ⟨he, h0, hbusy⟩ rfl⟩
  · split
    · exact ⟨hb.congr rfl, InPhase.congr (p := .edus b) ⟨he, h0, hbusy⟩ rfl⟩
    · exact .startSelected hb he h0 hbusy

theorem Engaged.congr {e : Option Nat} (h : s.Engaged cfg e) (hab : s'.aborted = s.aborted)
    (hep : s'.epoch = s.epoch)
    (hack : s'.acking = s.acking) : s'.Engaged cfg e := by
  have hcur := isCurrent_congr hep
  exact ⟨hep ▸ h.bound, by rw [hab, hack, hcur]; exact h.aborted, by rw [hab, hcur]; exact h.current⟩

theorem InFlight.selectEvents {t : Tick} (hb : s.Bounded cfg) (he : s.Engaged cfg b.epoch)
    (hm : s.aborted = false → s.Matched) : (s.selectEvents cfg t b).InFlight cfg := by
  have hspec := selectEventsCurrent_spec cfg t (b.rows.any Row.isPdu) s.status
  unfold Sender.selectEvents
  have hb' : ∀ st : TransactionStatus, Bounded cfg { s with status := some st } := fun _ =>
    ⟨hb.bound, hb.ack, hb.fed, hb.quiet, hb.one⟩
  have h0 : s.status.any TransactionStatus.isBusy = false → s.live = 0 := by
    intro hnb
    by_cases hab : s.aborted
    · exact hb.quiet hab
    · have hne : s.live ≠ 1 := fun h1 => by
        have := (hm (by simpa using hab)).mpr h1
        simp [busy, hnb] at this
      have := hb.one
      omega
  split
  · next st hsel =>
    rw [hsel] at hspec
    have hview : view { s with status := some st, phase := .idle } = s.view := by
      simp [view, hspec, epochs, acking]
    refine ⟨hb.congr hview, InPhase.congr (p := .idle) ⟨fun ha hack => ?_, hm⟩ hview⟩
    exact absurd ((he.aborted ha).1.symm.trans hack) (by simp)
  · next st hsel =>
    rw [hsel] at hspec
    exact ⟨(hb' st).congr rfl, he.congr rfl rfl rfl, h0 hspec.1, by simpa [busy] using hspec.2⟩
  · next st hsel =>
    rw [hsel] at hspec
    exact .compose (hb' st) (he.congr rfl rfl rfl) (h0 hspec.1) (by simpa [busy] using hspec.2)

theorem InFlight.handleRequest {t : Tick} {m : Msg} {ms : List Msg} (hs : s.InFlight cfg) (hp : s.phase = .idle)
    (hc : s.channel = m :: ms) : InFlight cfg (({ s with channel := ms }).handleRequest cfg t m) := by
  have hph := hs.phase
  rw [hp] at hph
  have hack : acking { s with channel := ms } → s.acking := fun h => by
    simp only [acking, hc, List.contains_cons, Bool.or_eq_true]
    exact .inr h
  have hb : Bounded cfg { s with channel := ms } := ⟨hs.bound, fun h => hs.ack (hack h), hs.fed, hs.quiet, hs.one⟩
  have hmat : s.aborted = false → Matched { s with channel := ms } := hph.2
  have hnone (hab : s.aborted) : InFlight cfg { s with channel := ms, status := none } :=
    (hb.idle _ (hs.quiet hab) rfl : InFlight cfg { s with channel := ms, status := none, phase := .idle }).congr rfl
      hp
  unfold Sender.handleRequest
  cases m with
  | abortAck => exact hnone (hs.ack (by simp [acking, hc]))
  | flush =>
    simp only
    split
    · next hab => exact hnone hab
    · next hab =>
      have hab : s.aborted = false := by simpa using hab
      exact ⟨hb.congr rfl, InPhase.congr (p := .flushQueued _) ⟨.of_newEpoch hab, hmat⟩ rfl⟩
  | event r =>
    simp only
    split
    · next hab => exact (hnone hab).congr rfl rfl
    · next hab => exact .selectEvents hb (.of_newEpoch (by simpa using hab)) hmat

theorem markAsActive_view (hb : s.Bounded cfg) (hact : s.markAsActiveIfCurrent cfg b.epoch b.rows = some s') :
    s'.view = s.view ∧ s.aborted = false := by
  obtain ⟨rfl, hcur⟩ := markAsActiveIfCurrent_eq_some hact
  refine ⟨rfl, ?_⟩
  by_cases hab : s.aborted
  · exact (hcur (hb.fed hab)).2
  · simpa using hab

theorem markAsActive_refused (he : s.Engaged cfg b.epoch)
    (hact : s.markAsActiveIfCurrent cfg b.epoch b.rows = none) :
    s.aborted := by
  obtain ⟨hfed, hab⟩ := markAsActiveIfCurrent_eq_none hact
  by_contra hn
  obtain ⟨c, -, hc⟩ := he.bound.1 hfed
  have hcur := he.current (by simpa using hn)
  simp only [hc, isCurrent, Option.all_some, beq_iff_eq] at hcur
  exact hn (hab (by rw [hc, hcur]))

theorem InFlight.work {t : Tick} (hs : s.InFlight cfg) (hok : s.phase.recovers → s.acking = false)
    (h : s.work cfg t = some s') : s'.InFlight cfg := by
  have hb := hs.toBounded
  have hph := hs.phase
  unfold Sender.work at h
  cases hp : s.phase with
  | recovered rows selected =>
    rw [hp] at hph
    obtain ⟨hep, -, hack⟩ := hph
    have hno : s.acking = false := hok (hp ▸ rfl)
    have hab : s.aborted = false := by
      by_contra hab
      have := hack (by simpa using hab)
      simp [hno] at this
    cases hp ▸ h
    exact hb.push (some .running) (by simp [live, hep]) hab (.inl rfl) rfl
  | flushQueued e =>
    rw [hp] at hph
    cases hp ▸ h
    exact ⟨hb.congr rfl, InPhase.congr (p := .flushReliable _) (s := s) hph rfl⟩
  | flushReliable b =>
    rw [hp] at hph
    cases hp ▸ h
    exact .selectEvents hb hph.1 hph.2
  | retry b =>
    rw [hp] at h hph
    obtain ⟨he, h0, hbusy⟩ := hph
    simp only at h
    split at h <;> cases h
    · exact .compose hb he h0 hbusy
    · exact .startSelected hb he h0 hbusy
  | activate b =>
    rw [hp] at h hph
    obtain ⟨he, h0, hbusy⟩ := hph
    simp only at h
    split at h <;> cases h
    · next hact =>
      have hab := markAsActive_refused he hact
      refine ⟨hb.congr rfl, fun _ hack => ?_, fun hn => ?_⟩
      · exact absurd ((he.aborted hab).1.symm.trans hack) (by simp)
      · exact absurd (hab.symm.trans hn) (by simp)
    · next s₁ hact =>
      have hview := (markAsActive_view hb hact).1
      have hph : s₁.InPhase cfg (.edus b) := InPhase.congr (p := .edus b) (s := s) ⟨he, h0, hbusy⟩ hview
      split
      · exact ⟨(hb.congr hview).congr rfl, hph.congr rfl⟩
      · exact .startSelected (hb.congr hview) hph.1 hph.2.1 hph.2.2
  | edus b =>
    rw [hp] at hph
    cases hp ▸ h
    exact .startSelected hb hph.1 hph.2.1 hph.2.2
  | dropActive =>
    rw [hp] at hph
    exact hph.elim
  | okReliable e =>
    rw [hp] at hph
    cases hp ▸ h
    exact ⟨hb.congr rfl, InPhase.congr (p := .okActive e) (s := s) hph rfl⟩
  | okActive e =>
    rw [hp] at hph
    cases hp ▸ h
    exact ⟨hb.congr rfl, InPhase.congr (p := .okQueued e) (s := s) hph rfl⟩
  | okQueued e =>
    rw [hp] at hph
    cases hp ▸ h
    exact ⟨hb.congr rfl, InPhase.congr (p := .okScan _) (s := s) hph rfl⟩
  | okScan b =>
    rw [hp] at hph
    cases hp ▸ h
    unfold startNext
    split
    · exact ⟨hb.congr rfl, InPhase.congr (p := .okActivate _) (s := s) hph rfl⟩
    · split
      · exact hb.idle _ hph.2 rfl
      · exact hb.idle _ hph.2 rfl
  | okActivate b =>
    rw [hp] at h hph
    obtain ⟨he, h0⟩ := hph
    simp only at h
    split at h <;> cases h
    · exact hb.idle _ h0 rfl
    · next s₁ hact =>
      obtain ⟨hview, hab⟩ := markAsActive_view hb hact
      have hph : s₁.InPhase cfg (.okActivate b) := InPhase.congr (p := .okActivate b) (s := s) ⟨he, h0⟩ hview
      have hab₁ : s₁.aborted = false := by
        simp only [view, Prod.mk.injEq] at hview
        rw [hview.2.2.1, hab]
      exact (hb.congr hview).push (some .running) hph.2 hab₁ (.inr hph.1) rfl
  | finishReliable =>
    cases hp ▸ h
    exact ⟨hb.congr rfl, trivial⟩
  | finishActive =>
    cases hp ▸ h
    exact ⟨hb.congr rfl, trivial⟩
  | starting | idle | finishing => cases hp ▸ h

/-! ## Results -/

theorem live_takeDone {i : Nat} {T : Txn} (hT : s.flight[i]? = some T) :
    s.live = live { s with flight := s.flight.eraseIdx i } + if s.isCurrent T.epoch then 1 else 0 := by
  obtain ⟨hi, rfl⟩ := List.getElem?_eq_some_iff.mp hT
  have hperm := (List.getElem_cons_eraseIdx_perm hi).map Txn.epoch
  rw [live, epochs, ← hperm.countP_eq, List.map_cons, List.countP_cons]
  rfl

theorem Bounded.takeDone {i : Nat} {T : Txn} (hb : s.Bounded cfg) (hT : s.flight[i]? = some T) :
    Bounded cfg { s with flight := s.flight.eraseIdx i } := by
  have hlive := live_takeDone hT
  refine ⟨fun e he => ?_, hb.ack, hb.fed, fun hab => ?_, ?_⟩
  · obtain ⟨T', hT', rfl⟩ := List.mem_map.mp he
    exact hb.bound _ (List.mem_map_of_mem (List.mem_of_mem_eraseIdx hT'))
  · have := hb.quiet hab
    omega
  · have := hb.one
    omega

theorem InFlight.handleResponse {i : Nat} {T : Txn} {ok : Bool} (hs : s.InFlight cfg) (hp : s.phase = .idle)
    (hT : s.flight[i]? = some T) :
    InFlight cfg (({ s with flight := s.flight.eraseIdx i }).handleResponse cfg T.epoch ok) := by
  have hb := hs.toBounded.takeDone hT
  have hlive := live_takeDone hT
  have hph := hs.phase
  rw [hp] at hph
  unfold Sender.handleResponse
  split
  · next hcur =>
    rw [if_neg (by simpa [isCurrent] using hcur)] at hlive
    refine ⟨hb, ?_⟩
    change InPhase cfg _ s.phase
    rw [hp]
    refine ⟨hph.1, fun hab => ?_⟩
    have := hph.2 hab
    rw [Matched, hlive] at this
    exact this
  · next hcur =>
    have hcur : s.isCurrent T.epoch := by simpa [isCurrent] using hcur
    rw [if_pos hcur] at hlive
    split
    · next hab =>
      have := hs.quiet hab
      omega
    · next hab =>
      have hone := hs.one
      have h0 : live { s with flight := s.flight.eraseIdx i } = 0 := by omega
      split
      · have heng : s.Engaged cfg T.epoch :=
          ⟨hs.bound _ (List.mem_map_of_mem (List.mem_of_getElem? hT)), fun ha => absurd ha hab, fun _ => hcur⟩
        exact ⟨hb.congr rfl, heng.congr rfl rfl rfl, h0⟩
      · unfold handleResponseErr
        split
        · exact (hb.idle none h0 rfl).congr rfl hp
        · refine (hb.idle (s.status.map fun _ => .failed (failedTries s.status)) h0 ?_).congr rfl hp
          cases s.status <;> rfl

/-! ## Aborts and resumes -/

theorem Bound.mono {n m : Nat} {e : Option Nat} (hnm : n ≤ m) (h : Bound cfg n e) : Bound cfg m e :=
  ⟨fun hfed => (h.1 hfed).imp fun _ hc => ⟨hc.1.trans hnm, hc.2⟩, h.2⟩

theorem InFlight.abort (hs : s.InFlight cfg) (hfed : cfg.kind = .federation) (hmax : s.epoch < u64Max) :
    s.abortDestination.InFlight cfg := by
  have hnext : s.abortDestination.epoch = s.epoch + 1 := by simp [abortDestination, nextEpoch, hmax]
  have hstale : ∀ e, Bound cfg s.epoch e → s.abortDestination.isCurrent e = false := by
    intro e he
    obtain ⟨c, hc, rfl⟩ := he.1 hfed
    simp only [isCurrent, hnext, Option.all_some, beq_eq_false_iff_ne]
    omega
  have hmono : ∀ e, Bound cfg s.epoch e → Bound cfg s.abortDestination.epoch e := fun e he =>
    he.mono (hnext ▸ Nat.le_succ _)
  have hack : s.abortDestination.acking := by simp [acking, abortDestination]
  have h0 : s.abortDestination.live = 0 := by
    rw [live, List.countP_eq_zero]
    intro e he
    simp [hstale e (hs.bound e he)]
  have heng : ∀ e, s.Engaged cfg e → s.abortDestination.Engaged cfg e := fun e he =>
    ⟨hmono e he.bound, fun _ => ⟨hack, hstale e he.bound⟩, fun hab => by cases hab⟩
  refine ⟨⟨fun e he => hmono e (hs.bound e he), fun _ => rfl, fun _ => hfed, fun _ => h0, by omega⟩, ?_⟩
  have hph := hs.phase
  change InPhase cfg _ s.phase
  cases hp : s.phase with
  | starting | recovered rows n =>
    rw [hp] at hph
    exact ⟨hph.1, hph.2.1, fun _ => hack⟩
  | idle => exact ⟨fun _ hn => absurd (hack.symm.trans hn) (by simp), fun hab => by cases hab⟩
  | flushQueued e | flushReliable b =>
    rw [hp] at hph
    exact ⟨heng _ hph.1, fun hab => by cases hab⟩
  | retry b | activate b | edus b =>
    rw [hp] at hph
    exact ⟨heng _ hph.1, h0, hph.2.2⟩
  | okReliable e | okActive e | okQueued e | okScan b | okActivate b =>
    rw [hp] at hph
    exact ⟨heng _ hph.1, h0⟩
  | dropActive =>
    rw [hp] at hph
    exact hph
  | finishing | finishReliable | finishActive => trivial

theorem InFlight.resume (hs : s.InFlight cfg) (hack : s.acking = false) : s.resumeDestination.InFlight cfg := by
  by_cases hab : s.aborted
  · have h0 : s.live = 0 := hs.quiet hab
    have hno : ∀ {p : Prop}, s.acking → p := fun h => absurd (h.symm.trans hack) (by simp)
    refine ⟨⟨hs.bound, hno, nofun, nofun, hs.one⟩, ?_⟩
    have hph := hs.phase
    change InPhase cfg _ s.phase
    cases hp : s.phase with
    | starting | recovered rows n =>
      rw [hp] at hph
      exact hno (hph.2.2 hab)
    | idle =>
      rw [hp] at hph
      refine ⟨nofun, fun _ => ?_⟩
      have hbusy : s.resumeDestination.busy = false := hph.1 hab hack
      have h0' : s.resumeDestination.live = 0 := h0
      simp [Matched, hbusy, h0']
    | flushQueued e | flushReliable b | retry b | activate b | edus b | okReliable e | okActive e | okQueued e
      | okScan b | okActivate b =>
      rw [hp] at hph
      exact hno (hph.1.aborted hab).1
    | dropActive =>
      rw [hp] at hph
      exact hph
    | finishing | finishReliable | finishActive => trivial
  · exact hs.congr (by simp [view, resumeDestination, epochs, acking, hab]) rfl

/-! ## Runs -/

/-- An abort counts on its message: a resume waits for its answer, start-up builds no
transaction behind it, and the generation changes. -/
structure AbortAnswered (a : SendAction) (s : Sender) : Prop where
  resume : a = .resume → s.acking = false
  abort : a = .abort → s.epoch < u64Max
  start : a.works → s.phase.recovers → s.acking = false

instance (a : SendAction) (s : Sender) : Decidable (AbortAnswered a s) :=
  decidable_of_iff
    ((a = .resume → s.acking = false) ∧ (a = .abort → s.epoch < u64Max) ∧
      (a.works → s.phase.recovers → s.acking = false))
    ⟨fun h => ⟨h.1, h.2.1, h.2.2⟩, fun h => ⟨h.resume, h.abort, h.start⟩⟩

theorem send_acking (t : SendTable) (r : Row) : (s.send t r).acking = s.acking := by
  unfold send
  split
  · rfl
  · simp [acking]

theorem step_acking (h : s.step cfg a = some s') (ha : a.outside = true) (hl : a.lifts = false) :
    s'.acking = s.acking := by
  cases a with
  | sendPdu id =>
    cases h
    exact send_acking _ _
  | sendEdu json =>
    cases h
    unfold sendEdu
    split
    · rfl
    · exact send_acking _ _
  | sendReliableEdu json =>
    obtain ⟨-, ⟨⟩⟩ := Option.ite_none_right_eq_some.mp h
    unfold sendEdu
    split
    · rfl
    · exact send_acking _ _
  | flush =>
    cases h
    simp [acking]
  | cleanupActive | cleanupQueued =>
    obtain ⟨-, ⟨⟩⟩ := Option.ite_none_right_eq_some.mp h
    rfl
  | clear t =>
    cases h
    cases t <;> rfl
  | abortNext =>
    simp only [Sender.step, Sender.abortNext] at h
    split at h <;> cases h <;> rfl
  | abort | resume => cases hl
  | _ => cases ha

theorem step_view (h : s.step cfg a = some s') (ha : a.outside = true) (hl : a.lifts = false) :
    s'.view = s.view ∧ s'.phase = s.phase := by
  have hown := step_own h ha
  have hack := step_acking h ha hl
  have hgate : s'.aborted = s.aborted ∧ s'.epoch = s.epoch := by
    by_cases hg : a.gates
    · cases a with
      | abortNext =>
        simp only [Sender.step, Sender.abortNext] at h
        split at h <;> cases h <;> exact ⟨rfl, rfl⟩
      | abort | resume => cases hl
      | restart => cases ha
      | _ => cases hg
    · have := step_gate h (by simpa using hg)
      simp only [gate, Prod.mk.injEq] at this
      exact ⟨this.1, this.2.1⟩
  simp only [own, Prod.mk.injEq] at hown
  obtain ⟨hst, hp, hf⟩ := hown
  exact ⟨by simp only [view, epochs, hst, hf, hgate, hack], hp⟩

theorem epochs_advance {i : Nat} {T : Txn} (hT : s.flight[i]? = some T) (t : Travel) :
    (s.flight.set i { T with travel := t }).map Txn.epoch = s.epochs := by
  obtain ⟨hi, rfl⟩ := List.getElem?_eq_some_iff.mp hT
  rw [List.map_set, epochs]
  apply List.ext_getElem
  · simp
  · intro j hj hj'
    by_cases hij : i = j
    · subst hij
      simp
    · simp [List.getElem_set_ne hij]

theorem inFlight_start {p : Phase} (hb : s.Bounded cfg) (hph : s.InPhase cfg .starting)
    (hp : p = .idle ∨ ∃ rows n, p = .recovered rows n) (active : RowTable) :
    InFlight cfg { s with active := active, phase := p } := by
  obtain ⟨hep, hst, hack⟩ := hph
  rcases hp with rfl | ⟨rows, n, rfl⟩
  · refine (hb.idle none (by simp [live, hep]) rfl).congr ?_ rfl
    simp [view, hst, epochs, acking]
  · exact ⟨hb.congr rfl, hep, hst, hack⟩

theorem InFlight.step (hs : s.InFlight cfg) (hok : AbortAnswered a s) (h : s.step cfg a = some s') :
    s'.InFlight cfg := by
  cases a with
  | abort =>
    obtain ⟨⟨hfed, -⟩, ⟨⟩⟩ := Option.ite_none_right_eq_some.mp h
    exact hs.abort hfed (hok.abort rfl)
  | resume =>
    obtain ⟨-, ⟨⟩⟩ := Option.ite_none_right_eq_some.mp h
    exact hs.resume (hok.resume rfl)
  | restart =>
    cases h
    exact ⟨⟨List.forall_mem_nil _, nofun, nofun, nofun, Nat.zero_le _⟩, rfl, rfl, nofun⟩
  | startup netburst keep =>
    obtain ⟨hp, ⟨⟩⟩ := Option.ite_none_right_eq_some.mp h
    refine inFlight_start hs.toBounded (hp ▸ hs.phase) ?_ _
    split
    · exact .inr ⟨_, _, rfl⟩
    · exact .inl rfl
  | startupSkip =>
    obtain ⟨hp, ⟨⟩⟩ := Option.ite_none_right_eq_some.mp h
    exact inFlight_start hs.toBounded (hp ▸ hs.phase) (.inl rfl) s.active
  | request t =>
    obtain ⟨m, ms, hp, hc, rfl⟩ := request_cases h
    exact hs.handleRequest hp hc
  | work t =>
    exact hs.work (hok.start rfl) h
  | response i =>
    obtain ⟨hp, h⟩ := Option.ite_none_right_eq_some.mp h
    obtain ⟨T, ok, hT, -, rfl⟩ := takeDone_cases h
    exact hs.handleResponse hp hT
  | close =>
    obtain ⟨-, ⟨⟩⟩ := Option.ite_none_right_eq_some.mp h
    exact ⟨hs.toBounded.congr rfl, trivial⟩
  | finishResponse i =>
    obtain ⟨hp, h⟩ := Option.ite_none_right_eq_some.mp h
    obtain ⟨T, ok, hT, -, rfl⟩ := takeDone_cases h
    have hb := hs.toBounded.takeDone hT
    unfold Sender.finishResponse
    split
    · exact ⟨hb.congr rfl, trivial⟩
    · refine ⟨hb, ?_⟩
      change InPhase cfg _ s.phase
      rw [hp]
      trivial
  | transmit i | start i | cancel i =>
    obtain ⟨T, t, hT, -, rfl⟩ := advance_cases h
    exact hs.congr (by simp only [view, epochs, epochs_advance hT]; rfl) rfl
  | answer i ok =>
    obtain ⟨T, hT, rfl⟩ := answered_cases h
    exact hs.congr (by simp only [view, epochs, epochs_advance hT]; rfl) rfl
  | sendPdu | sendEdu | sendReliableEdu | flush | cleanupActive | cleanupQueued | clear | abortNext =>
    obtain ⟨hview, hp⟩ := step_view h rfl rfl
    exact hs.congr hview hp

theorem inFlight_init : InFlight cfg {} :=
  ⟨⟨List.forall_mem_nil _, nofun, nofun, nofun, Nat.zero_le _⟩, rfl, rfl, nofun⟩

end Sender

/-- In every run in which a resume comes after the worker has handled the abort
message, start-up builds no transaction while one is queued, and the generation is
not at its limit: between two steps of the worker a destination that is Running or
Retrying has exactly one transaction of its generation in flight or an abort message
queued, and it never has two. -/
theorem one_in_flight {cfg : SenderConfig} {s : Sender}
    (h : Reaches (Sender.step cfg) Sender.AbortAnswered {} s) :
    (s.phase = .idle → s.busy → s.live = 1 ∨ s.acking) ∧ s.live ≤ 1 := by
  have hs : s.InFlight cfg := h.invariant Sender.inFlight_init fun _ _ _ hs hok h => hs.step hok h
  refine ⟨fun hp hbusy => ?_, hs.one⟩
  have hph := hs.phase
  rw [hp] at hph
  by_cases hab : s.aborted
  · by_contra hn
    rw [not_or] at hn
    have := hph.1 hab (by simpa using hn.2)
    simp [hbusy] at this
  · exact .inl ((hph.2 (by simpa using hab)).mp hbusy)

open SendAction in
/-- The transaction built at start-up survives the abort; a new PDU starts another. -/
theorem two_in_flight_after_abort :
    ¬ ∀ s, Reaches (Sender.step .plain) (fun _ _ => True) {} s →
      (s.phase = .idle → s.busy → s.live = 1 ∨ s.acking) ∧ s.live ≤ 1 := by
  intro h
  have hrun : Reaches (Sender.step .plain) (fun _ _ => True) {}
      { active := [.pdu [1, 2]], epoch := 1, status := some .running,
        flight := [⟨some 1, [.pdu [1, 1]], 0, 0, .building⟩, ⟨some 1, [.pdu [1, 2]], 0, 1, .waiting⟩],
        phase := .idle } :=
    Reaches.of_runWhile (abortAtStart ++ [sendPdu [1, 2], request {}, work {}, work {}]) .init (by decide)
  exact absurd (h _ hrun).2 (by decide)

/-- A PDU sent after an abort and its resume. -/
theorem one_in_flight_resumed :
    ∃ s, Reaches (Sender.step .plain) Sender.AbortAnswered {} s ∧ s.phase = .idle ∧ s.busy ∧ s.live = 1 := by
  have hrun : Reaches (Sender.step .plain) Sender.AbortAnswered {}
      { active := [.pdu [1, 2]], epoch := 1, status := some .running,
        flight := [⟨some 0, [.pdu [1, 1]], 0, 0, .waiting⟩, ⟨some 1, [.pdu [1, 2]], 0, 1, .waiting⟩],
        phase := .idle } :=
    Reaches.of_runWhile [.startup true 10, .sendPdu [1, 1], .request {}, .work {}, .work {}, .abort, .request {},
      .abortNext, .abortNext, .abortNext, .abortNext, .abortNext, .resume, .sendPdu [1, 2], .request {}, .work {},
      .work {}] .init (by decide)
  have hone := ((one_in_flight hrun).1 rfl (by decide)).resolve_right (by decide)
  exact ⟨_, hrun, rfl, by decide, hone⟩

end Congruent
