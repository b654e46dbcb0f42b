import Congruent.InFlight

/-!
# The reliable queue

A success removes the reliable source of every active row. That is right as long as
the active rows are those of the transaction that succeeded.
-/

namespace Congruent

theorem RowTable.mem_put {t : RowTable} {r r' : Row} : r' ∈ t.put r ↔ r' = r ∨ r' ∈ t := by
  unfold RowTable.put
  split
  · next hr =>
    refine ⟨.inr, fun h => ?_⟩
    rcases h with rfl | h
    · exact hr
    · exact h
  · exact List.mem_orderedInsert _

theorem RowTable.mem_putAll {t : RowTable} {rows : List Row} {r : Row} :
    r ∈ t.putAll rows ↔ r ∈ rows ∨ r ∈ t := by
  induction rows generalizing t with
  | nil => simp [RowTable.putAll]
  | cons r' rows ih =>
    change r ∈ (t.put r').putAll rows ↔ _
    rw [ih, RowTable.mem_put, List.mem_cons]
    tauto

namespace Sender

variable {cfg : SenderConfig} {s s' : Sender} {a : SendAction}

/-! ## What the steps do to the reliable table -/

theorem startSelected_tables (b : Selection) (edus : Nat) : (s.startSelected cfg b edus).tables = s.tables :=
  tables_of_shared (startSelected_shared b edus)

theorem reliable_of_tables (h : s'.tables = s.tables) : s'.reliable = s.reliable := by
  simp only [tables, Prod.mk.injEq] at h
  exact h.2.1

/-- The worker takes reliable rows away after a success only. -/
theorem work_reliable {t : Tick} (h : s.work cfg t = some s') :
    s'.reliable = s.reliable ∨
      ((∃ e, s.phase = .okReliable e) ∨ s.phase = .finishReliable) ∧ s'.reliable =
        s.reliable.removeAll s.active := by
  unfold work at h
  cases hp : s.phase with
  | okReliable e =>
    cases hp ▸ h
    exact .inr ⟨.inl ⟨e, rfl⟩, rfl⟩
  | finishReliable =>
    cases hp ▸ h
    exact .inr ⟨.inr rfl, rfl⟩
  | flushReliable b =>
    cases hp ▸ h
    exact .inl (reliable_of_tables (tables_of_shared (selectEvents_shared t _)))
  | retry b =>
    rw [hp] at h
    simp only at h
    split at h <;> cases h
    · exact .inl (reliable_of_tables (tables_of_shared (compose_shared b)))
    · exact .inl (reliable_of_tables (startSelected_tables _ _))
  | activate b =>
    rw [hp] at h
    simp only at h
    split at h <;> cases h
    · exact .inl rfl
    · next hact =>
      obtain ⟨rfl, -⟩ := markAsActiveIfCurrent_eq_some hact
      split
      · exact .inl rfl
      · rw [reliable_of_tables (startSelected_tables _ _)]
        exact .inl rfl
  | edus b =>
    cases hp ▸ h
    exact .inl (reliable_of_tables (startSelected_tables _ _))
  | okScan b =>
    cases hp ▸ h
    exact .inl (reliable_of_tables (tables_of_shared (startNext_shared _)))
  | okActivate b =>
    rw [hp] at h
    simp only at h
    split at h <;> cases h
    · exact .inl rfl
    · next hact =>
      obtain ⟨rfl, -⟩ := markAsActiveIfCurrent_eq_some hact
      exact .inl rfl
  | recovered rows n | flushQueued e | okQueued e | dropActive | okActive e | finishActive =>
    cases hp ▸ h
    exact .inl rfl
  | starting | idle | finishing => cases hp ▸ h

theorem handleRequest_reliable {t : Tick} {m : Msg} :
    (s.handleRequest cfg t m).reliable = s.reliable ∨
      s.aborted ∧ ∃ r, (s.handleRequest cfg t m).reliable = s.reliable.removeAll [r] := by
  unfold handleRequest
  cases m with
  | event r =>
    simp only
    split
    · next hab => exact .inr ⟨hab, r, rfl⟩
    · exact .inl (reliable_of_tables (tables_of_shared (selectEvents_shared t _)))
  | flush =>
    simp only
    split <;> exact .inl rfl
  | abortAck => exact .inl rfl

/-- The changes of the reliable table. -/
inductive ReliableChange (cfg : SenderConfig) (s s' : Sender) : SendAction → Prop where
  | same {a : SendAction} (h : s'.reliable = s.reliable) : ReliableChange cfg s s' a
  | queued {json : String} (hfed : cfg.kind = .federation)
      (h : s'.reliable = s.reliable.put (.edu (s.count + 1) json)) : ReliableChange cfg s s' (.sendReliableEdu json)
  | aborted {a : SendAction} (hab : s.aborted) (h : ∀ r ∈ s'.reliable, r ∈ s.reliable) : ReliableChange cfg s s' a
  | cleared (h : s'.reliable = []) : ReliableChange cfg s s' (.clear .reliable)
  | delivered {t : Tick} (hp : (∃ e, s.phase = .okReliable e) ∨ s.phase = .finishReliable)
      (h : s'.reliable = s.reliable.removeAll s.active) : ReliableChange cfg s s' (.work t)

theorem step_reliable (hs : s.Swept cfg) (h : s.step cfg a = some s') : ReliableChange cfg s s' a := by
  cases a with
  | sendPdu id =>
    cases h
    refine .same ?_
    unfold send
    split <;> rfl
  | sendEdu json =>
    cases h
    refine .same ?_
    unfold sendEdu send
    split <;> rfl
  | sendReliableEdu json =>
    obtain ⟨hfed, ⟨⟩⟩ := Option.ite_none_right_eq_some.mp h
    unfold sendEdu send
    split
    · exact .same rfl
    · exact .queued hfed rfl
  | request t =>
    obtain ⟨m, ms, -, -, rfl⟩ := request_cases h
    rcases handleRequest_reliable (s := { s with channel := ms }) (t := t) (m := m) with h | ⟨hab, r, h⟩
    · exact .same h
    · exact .aborted hab fun r' hr' => mem_of_mem_removeAll r' (h ▸ hr')
  | work t =>
    rcases work_reliable h with h | ⟨hp, h⟩
    · exact .same h
    · exact .delivered hp h
  | response i =>
    obtain ⟨-, h⟩ := Option.ite_none_right_eq_some.mp h
    obtain ⟨T, ok, -, -, rfl⟩ := takeDone_cases h
    exact .same (reliable_of_tables (tables_of_shared (handleResponse_shared _ _)))
  | finishResponse i =>
    obtain ⟨-, h⟩ := Option.ite_none_right_eq_some.mp h
    obtain ⟨T, ok, -, -, rfl⟩ := takeDone_cases h
    exact .same (reliable_of_tables (tables_of_shared (finishResponse_shared _ _)))
  | transmit i | start i | cancel i =>
    obtain ⟨T, t, -, -, rfl⟩ := advance_cases h
    exact .same rfl
  | answer i ok =>
    obtain ⟨T, -, rfl⟩ := answered_cases h
    exact .same rfl
  | clear t =>
    cases h
    cases t with
    | reliable => exact .cleared rfl
    | queued | active => exact .same rfl
  | abortNext =>
    have hab : s.aborted := by
      refine hs.busy fun ht => ?_
      simp [Sender.step, abortNext, ht] at h
    exact .aborted hab (step_smaller (hs.fed hab) hab h).reliable
  | startup netburst keep | startupSkip | close | cleanupActive | cleanupQueued | abort | resume =>
    obtain ⟨-, ⟨⟩⟩ := Option.ite_none_right_eq_some.mp h
    exact .same rfl
  | flush | restart =>
    cases h
    exact .same rfl

/-! ## The invariant -/

/-- Every active row that can be sent was in an accepted transaction. -/
def Answered (cfg : SenderConfig) (s : Sender) : Prop := ∀ r ∈ s.active, cfg.readable r → r ∈ s.accepted

/-- The worker is about to remove reliable rows. -/
def Draining (s : Sender) : Prop := (∃ e, s.phase = .okReliable e) ∨ s.phase = .finishReliable

structure Delivered (cfg : SenderConfig) (s : Sender) : Prop where
  bound : ∀ T ∈ s.flight, Bound cfg s.epoch T.epoch
  covers : ∀ T ∈ s.flight, s.isCurrent T.epoch → ∀ r ∈ s.active, r ∈ T.rows
  done : ∀ T ∈ s.flight, s.isCurrent T.epoch → T.travel = .done true → s.aborted ∨ s.Answered cfg
  draining : s.Draining → s.aborted ∨ s.Answered cfg

theorem Delivered.mono (hs : s.Delivered cfg) (hab : s'.aborted = s.aborted) (hep : s'.epoch = s.epoch)
    (hf : ∀ T ∈ s'.flight, T ∈ s.flight) (hact : ∀ r ∈ s'.active, r ∈ s.active) (hacc : s'.accepted = s.accepted)
    (hd : s'.Draining → s.aborted ∨ s.Answered cfg) : s'.Delivered cfg := by
  have hcur := isCurrent_congr hep
  have hans : s.aborted ∨ s.Answered cfg → s'.aborted ∨ s'.Answered cfg := by
    rw [hab]
    exact Or.imp_right fun h r hr hread => hacc ▸ h r (hact r hr) hread
  refine ⟨fun T hT => hep ▸ hs.bound T (hf T hT), fun T hT hc r hr => ?_, fun T hT hc hdone => ?_,
    fun h => hans (hd h)⟩
  · exact hs.covers T (hf T hT) (hcur ▸ hc) r (hact r hr)
  · exact hans (hs.done T (hf T hT) (hcur ▸ hc) hdone)

theorem live_eq_zero (h : s.live = 0) {T : Txn} (hT : T ∈ s.flight) : s.isCurrent T.epoch = false := by
  rw [live, List.countP_eq_zero] at h
  simpa using h T.epoch (List.mem_map_of_mem hT)

theorem Delivered.activate (hs : s.Delivered cfg) (h0 : s.live = 0) (rows : List Row) (p : Phase)
    (hp : ¬ Draining { s with phase := p }) : Delivered cfg { s.markAsActive rows with phase := p } := by
  refine ⟨hs.bound, fun T hT hc => ?_, fun T hT hc => ?_, fun h => absurd h hp⟩
  · exact absurd (hc.symm.trans (live_eq_zero h0 hT)) (by simp)
  · exact absurd (hc.symm.trans (live_eq_zero h0 hT)) (by simp)

theorem Delivered.push (st : Option TransactionStatus) {e : Option Nat} {rows : List Row} {edus selected : Nat}
    (hs : s.Delivered cfg) (h0 : s.live = 0) (he : cfg.kind = .federation → e.getD s.epoch ≤ s.epoch)
    (hrows : ∀ r ∈ s.active, r ∈ rows) :
    Delivered cfg (({ s with status := st, phase := .idle }).sendEvents cfg e rows edus selected) := by
  have hmem : ∀ T ∈ (({ s with status := st, phase := .idle }).sendEvents cfg e rows edus selected).flight,
      T ∈ s.flight ∨ Bound cfg s.epoch T.epoch ∧ T.rows = rows ∧ T.travel = .waiting := by
    intro T hT
    rcases List.mem_append.mp hT with hT | hT
    · exact .inl hT
    · obtain rfl := List.mem_singleton.mp hT
      refine .inr ⟨⟨fun hfed => ⟨_, he hfed, by simp [hfed]⟩, fun hn => by simp [hn]⟩, rfl, rfl⟩
  refine ⟨fun T hT => ?_, fun T hT hc => ?_, fun T hT hc hdone => ?_, fun h => ?_⟩
  · rcases hmem T hT with hT | ⟨hb, -⟩
    · exact hs.bound T hT
    · exact hb
  · rcases hmem T hT with hT | ⟨-, hr, -⟩
    · exact absurd (hc.symm.trans (live_eq_zero h0 hT)) (by simp)
    · exact hr ▸ hrows
  · rcases hmem T hT with hT | ⟨-, -, ht⟩
    · exact absurd (hc.symm.trans (live_eq_zero h0 hT)) (by simp)
    · simp [ht] at hdone
  · rcases h with ⟨e, h⟩ | h <;> cases h

theorem Delivered.move (hs : s.Delivered cfg) (st : Option TransactionStatus) {p : Phase}
    (hp : ¬ Draining { s with phase := p }) : Delivered cfg { s with status := st, phase := p } :=
  hs.mono rfl rfl (fun _ h => h) (fun _ h => h) rfl fun h => absurd h hp

theorem getD_of_isCurrent {e : Option Nat} (h : s.isCurrent e) : e.getD s.epoch ≤ s.epoch := by
  cases e with
  | none => exact Nat.le_refl _
  | some c =>
    simp only [isCurrent, Option.all_some, beq_iff_eq] at h
    exact h.le

variable {b : Selection}

theorem Delivered.startSelected {edus : Nat} (hs : s.Delivered cfg) (h0 : s.live = 0)
    (hrows : ∀ r ∈ s.active, r ∈ b.rows) : (s.startSelected cfg b edus).Delivered cfg := by
  unfold Sender.startSelected
  split
  · exact hs.move _ (by simp [Draining])
  · next hcur =>
    split
    · exact hs.move _ (by simp [Draining])
    · refine hs.push s.status h0 (fun _ => getD_of_isCurrent ?_) hrows
      by_contra hn
      simp [hn] at hcur

theorem Delivered.compose (hfed : cfg.kind = .federation)
    (hs : s.Delivered cfg) : (s.compose cfg b).Delivered cfg := by
  unfold Sender.compose
  split
  · exact hs.move _ (by simp [Draining])
  · exact hs.move _ (by simp [Draining])

theorem Delivered.selectEvents {t : Tick} (hfed : cfg.kind = .federation) (hs : s.Delivered cfg) :
    (s.selectEvents cfg t b).Delivered cfg := by
  unfold Sender.selectEvents
  split
  · exact hs.move _ (by simp [Draining])
  · exact hs.move _ (by simp [Draining])
  · refine .compose hfed (hs.mono rfl rfl (fun _ h => h) (fun _ h => h) rfl hs.draining)

/-- The condition at an await of the worker. -/
def CoveredAt (s : Sender) : Phase → Prop
  | .recovered rows _ => s.live = 0 ∧ ∀ r ∈ s.active, r ∈ rows
  | .retry _ | .activate _ => s.live = 0
  | .edus b | .okActivate b => s.live = 0 ∧ ∀ r ∈ s.active, r ∈ b.rows
  | _ => True

instance (p : Phase) : Decidable (s.CoveredAt p) := by
  unfold CoveredAt
  split <;> infer_instance

/-- Rows become active, and a transaction is put in flight, only while no other
transaction of the generation is in flight; it holds every active row. Reliable EDUs
are valid JSON. -/
structure Covered (cfg : SenderConfig) (a : SendAction) (s : Sender) : Prop where
  work : a.works → s.CoveredAt s.phase
  json : a.reliableEdu.all fun json => cfg.readable (.edu (s.count + 1) json)

instance (a : SendAction) (s : Sender) : Decidable (Covered cfg a s) :=
  decidable_of_iff
    ((a.works → s.CoveredAt s.phase) ∧ a.reliableEdu.all fun json => cfg.readable (.edu (s.count + 1) json))
    ⟨fun h => ⟨h.1, h.2⟩, fun h => ⟨h.work, h.json⟩⟩

theorem Delivered.work {t : Tick} (hfed : cfg.kind = .federation) (hs : s.Delivered cfg) (hok : s.CoveredAt s.phase)
    (h : s.work cfg t = some s') : s'.Delivered cfg := by
  unfold Sender.work at h
  cases hp : s.phase with
  | recovered rows n =>
    rw [hp] at hok
    cases hp ▸ h
    exact hs.push _ hok.1 (fun _ => Nat.le_refl _) hok.2
  | flushReliable b =>
    cases hp ▸ h
    exact .selectEvents hfed hs
  | retry b =>
    rw [hp] at h hok
    simp only at h
    split at h <;> cases h
    · exact .compose hfed hs
    · exact .startSelected hs hok fun _ hr => hr
  | activate b =>
    rw [hp] at h hok
    simp only at h
    split at h <;> cases h
    · exact hs.move _ (by simp [Draining])
    · next hact =>
      obtain ⟨rfl, -⟩ := markAsActiveIfCurrent_eq_some hact
      simp only [if_pos hfed]
      exact hs.activate hok _ _ (by simp [Draining])
  | edus b =>
    rw [hp] at hok
    cases hp ▸ h
    exact .startSelected hs hok.1 hok.2
  | okScan b =>
    cases hp ▸ h
    unfold startNext
    split
    · exact hs.move _ (by simp [Draining])
    · split <;> exact hs.move _ (by simp [Draining])
  | okActivate b =>
    rw [hp] at h hok
    simp only at h
    split at h <;> cases h
    · exact hs.move _ (by simp [Draining])
    · next hact =>
      obtain ⟨rfl, hcur⟩ := markAsActiveIfCurrent_eq_some hact
      have hs₁ := hs.activate hok.1 b.rows .idle (by simp [Draining])
      refine hs₁.push _ hok.1 (fun _ => ?_) fun r hr => ?_
      · rw [(hcur hfed).1]
        exact Nat.le_refl _
      · rcases RowTable.mem_putAll.mp hr with hr | hr
        · exact hr
        · exact hok.2 r hr
  | dropActive | okActive e | finishActive =>
    cases hp ▸ h
    refine hs.mono rfl rfl (fun _ h => h) nofun rfl fun h => ?_
    simp [Draining] at h
  | flushQueued e | okQueued e | okReliable e | finishReliable =>
    cases hp ▸ h
    refine hs.mono rfl rfl (fun _ h => h) (fun _ h => h) rfl fun h => ?_
    simp [Draining] at h
  | starting | idle | finishing => cases hp ▸ h

/-! ## Futures -/

theorem not_isCurrent_of_refuses {T : Txn} (hb : Bound cfg s.epoch T.epoch) (hfed : cfg.kind = .federation)
    (hr : s.refuses T) (hc : s.isCurrent T.epoch) : s.aborted := by
  obtain ⟨c, -, he⟩ := hb.1 hfed
  simp only [isCurrent, he, Option.all_some, beq_iff_eq] at hc
  simpa [refuses, he, hc] using hr

/-- A future ends well without an answer when the destination is aborted, or when it
holds nothing that can be sent. -/
theorem done_of_step {T : Txn} (hs : s.Delivered cfg) (hT : T ∈ s.flight) (hc : s.isCurrent T.epoch)
    (h : transmit cfg s T = some (.done true) ∨ start cfg s T = some (.done true) ∨ cancel cfg s T =
      some (.done true)) :
    s.aborted ∨ s.Answered cfg := by
  have hb := hs.bound T hT
  rcases h with h | h | h
  · unfold transmit at h
    split at h
    · split at h
      · next hr => exact .inl (not_isCurrent_of_refuses hb hr.1 hr.2 hc)
      · cases h
    · cases h
  · unfold start at h
    split at h
    · split at h
      · next hr =>
        obtain ⟨hfed, hr | hr⟩ := hr
        · refine .inr fun r hr' hread => ?_
          simp only [Txn.sendable, Bool.not_or, Bool.and_eq_true, Bool.not_eq_true', List.any_eq_false] at hr
          exact absurd hread (hr.1 r (hs.covers T hT hc r hr'))
        · exact .inl (not_isCurrent_of_refuses hb hfed hr hc)
      · cases h
    · cases h
  · unfold cancel at h
    split at h
    · next hr => exact .inl (not_isCurrent_of_refuses hb hr.2.1 hr.2.2 hc)
    · cases h

theorem Delivered.advance {i : Nat} {T : Txn} {t : Travel} (hs : s.Delivered cfg) (hT : s.flight[i]? = some T)
    (ht : t = .done true → s.isCurrent T.epoch → s.aborted ∨ s.Answered cfg) :
    Delivered cfg { s with flight := s.flight.set i { T with travel := t } } := by
  have hmem := List.mem_of_getElem? hT
  refine ⟨fun T' hT' => ?_, fun T' hT' hc => ?_, fun T' hT' hc hd => ?_, hs.draining⟩
  · rcases List.mem_or_eq_of_mem_set hT' with hT' | rfl
    · exact hs.bound T' hT'
    · exact hs.bound T hmem
  · rcases List.mem_or_eq_of_mem_set hT' with hT' | rfl
    · exact hs.covers T' hT' hc
    · exact hs.covers T hmem hc
  · rcases List.mem_or_eq_of_mem_set hT' with hT' | rfl
    · exact hs.done T' hT' hc hd
    · exact ht hd hc

theorem Delivered.answered {i : Nat} {ok : Bool} (hs : s.Delivered cfg) (h : s.answered cfg i ok = some s') :
    s'.Delivered cfg := by
  obtain ⟨T, hT, rfl⟩ := answered_cases h
  have hmem := List.mem_of_getElem? hT
  cases ok with
  | false => exact hs.advance hT nofun
  | true =>
    have hs₁ : Delivered cfg { s with accepted := s.accepted ++ T.rows.filter cfg.readable } := by
      have hans : s.aborted ∨ s.Answered cfg →
          s.aborted ∨ Answered cfg { s with accepted := s.accepted ++ T.rows.filter cfg.readable } :=
        Or.imp_right fun h r hr hread => List.mem_append_left _ (h r hr hread)
      exact ⟨hs.bound, hs.covers, fun T hT hc hd => hans (hs.done T hT hc hd), fun h => hans (hs.draining h)⟩
    refine hs₁.advance hT fun _ hc => .inr fun r hr hread => List.mem_append_right _ ?_
    exact List.mem_filter.mpr ⟨hs.covers T hmem hc r hr, hread⟩

theorem Delivered.takeDone {i : Nat} (hs : s.Delivered cfg) : Delivered cfg
    { s with flight := s.flight.eraseIdx i } :=
  hs.mono rfl rfl (fun _ hT => List.mem_of_mem_eraseIdx hT) (fun _ h => h) rfl hs.draining

theorem Delivered.handleResponse {i : Nat} {T : Txn} {ok : Bool} (hs : s.Delivered cfg) (hT : s.flight[i]? = some T)
    (hdone : T.travel = .done ok) :
    Delivered cfg (({ s with flight := s.flight.eraseIdx i }).handleResponse cfg T.epoch ok) := by
  have hs₁ : Delivered cfg { s with flight := s.flight.eraseIdx i } := hs.takeDone
  unfold Sender.handleResponse
  split
  · exact hs₁
  · next hcur =>
    split
    · exact hs₁.move _ (by simp [Draining])
    · split
      · next hok =>
        have hcur : s.isCurrent T.epoch := by simpa [isCurrent] using hcur
        have hans := hs.done T (List.mem_of_getElem? hT) hcur (hok ▸ hdone)
        exact hs₁.mono rfl rfl (fun _ h => h) (fun _ h => h) rfl fun _ => hans
      · unfold handleResponseErr
        split <;> exact hs₁.mono rfl rfl (fun _ h => h) (fun _ h => h) rfl hs.draining

theorem Delivered.finishResponse {i : Nat} {T : Txn} {ok : Bool} (hfed : cfg.kind = .federation)
    (hs : s.Delivered cfg) (hT : s.flight[i]? = some T) (hdone : T.travel = .done ok) :
    Delivered cfg (({ s with flight := s.flight.eraseIdx i }).finishResponse cfg T.epoch ok) := by
  have hs₁ : Delivered cfg { s with flight := s.flight.eraseIdx i } := hs.takeDone
  unfold Sender.finishResponse
  split
  · next hok =>
    simp only [hfed, Bool.and_eq_true, bne_self_eq_false, Bool.false_or, beq_iff_eq] at hok
    have hcur : s.isCurrent T.epoch := by simp [isCurrent, hok.2]
    have hans := hs.done T (List.mem_of_getElem? hT) hcur (hok.1 ▸ hdone)
    exact hs₁.mono rfl rfl (fun _ h => h) (fun _ h => h) rfl fun _ => hans
  · exact hs₁

/-! ## Aborts and resumes -/

theorem Delivered.abort (hs : s.Delivered cfg)
    (hfed : cfg.kind = .federation) : s.abortDestination.Delivered cfg := by
  have hle := le_nextEpoch s.epoch
  refine ⟨fun T hT => (hs.bound T hT).mono hle, fun T hT hc => ?_, fun _ _ _ _ => .inl rfl, fun _ => .inl rfl⟩
  obtain ⟨c, hc', he⟩ := (hs.bound T hT).1 hfed
  have hcn : c = nextEpoch s.epoch := by
    simpa [isCurrent, he, abortDestination] using hc
  refine hs.covers T hT ?_
  simp only [isCurrent, he, Option.all_some, beq_iff_eq]
  omega

theorem Delivered.resume (hs : s.Delivered cfg) (hsw : s.Swept cfg) (ht : s.task = .idle) :
    s.resumeDestination.Delivered cfg := by
  by_cases hab : s.aborted
  · have hemp : s.active = [] := (hsw.returned (hsw.rest hab ht)).2.2.1
    have hans : s.resumeDestination.Answered cfg := fun r hr => by
      have hr : r ∈ s.active := hr
      simp [hemp] at hr
    exact ⟨hs.bound, fun T hT hc r hr => hs.covers T hT hc r hr, fun _ _ _ _ => .inr hans, fun _ => .inr hans⟩
  · exact hs.mono (by simp [resumeDestination, hab]) rfl (fun _ h => h) (fun _ h => h) rfl hs.draining

/-! ## Runs -/

theorem step_active (hs : s.Swept cfg) (h : s.step cfg a = some s') (ha : a.outside = true) :
    (∀ r ∈ s'.active, r ∈ s.active) ∧ s'.accepted = s.accepted := by
  cases a with
  | sendPdu id =>
    cases h
    unfold send
    split <;> exact ⟨fun _ h => h, rfl⟩
  | sendEdu json =>
    cases h
    unfold sendEdu send
    split <;> exact ⟨fun _ h => h, rfl⟩
  | sendReliableEdu json =>
    obtain ⟨-, ⟨⟩⟩ := Option.ite_none_right_eq_some.mp h
    unfold sendEdu send
    split <;> exact ⟨fun _ h => h, rfl⟩
  | clear t =>
    cases h
    cases t with
    | active => exact ⟨nofun, rfl⟩
    | queued | reliable => exact ⟨fun _ h => h, rfl⟩
  | cleanupActive =>
    obtain ⟨-, ⟨⟩⟩ := Option.ite_none_right_eq_some.mp h
    exact ⟨nofun, rfl⟩
  | cleanupQueued | abort | resume =>
    obtain ⟨-, ⟨⟩⟩ := Option.ite_none_right_eq_some.mp h
    exact ⟨fun _ h => h, rfl⟩
  | flush =>
    cases h
    exact ⟨fun _ h => h, rfl⟩
  | abortNext =>
    have hab : s.aborted := by
      refine hs.busy fun ht => ?_
      simp [Sender.step, abortNext, ht] at h
    refine ⟨(step_smaller (hs.fed hab) hab h).active, ?_⟩
    simp only [Sender.step, abortNext] at h
    split at h <;> cases h <;> rfl
  | _ => cases ha

theorem not_draining_startup {netburst : Bool} {keep : Nat} : ¬ (s.startupNetburst netburst keep).Draining := by
  unfold Draining startupNetburst
  by_cases hc : netburst && !(List.take keep s.active).isEmpty
  · simp [hc]
  · simp [hc]

theorem Delivered.handleRequest {t : Tick} {m : Msg} {ms : List Msg} (hs : s.Delivered cfg)
    (hfed : cfg.kind = .federation) (hp : s.phase = .idle) :
    Delivered cfg (({ s with channel := ms }).handleRequest cfg t m) := by
  have hs₁ : Delivered cfg { s with channel := ms } :=
    hs.mono rfl rfl (fun _ h => h) (fun _ h => h) rfl hs.draining
  have hnd : ¬ s.Draining := by simp [Draining, hp]
  unfold Sender.handleRequest
  cases m with
  | event r =>
    simp only
    split
    · exact hs.mono rfl rfl (fun _ h => h) mem_of_mem_removeAll rfl fun h => absurd h hnd
    · exact .selectEvents hfed hs₁
  | flush =>
    simp only
    split
    · exact hs.mono rfl rfl (fun _ h => h) (fun _ h => h) rfl fun h => absurd h hnd
    · exact hs₁.move s.status (by simp [Draining])
  | abortAck => exact hs.mono rfl rfl (fun _ h => h) (fun _ h => h) rfl fun h => absurd h hnd

theorem Delivered.step (hfed : cfg.kind = .federation) (hs : s.Delivered cfg) (hsw : s.Swept cfg)
    (hok : Covered cfg a s) (h : s.step cfg a = some s') : s'.Delivered cfg := by
  cases a with
  | abort =>
    obtain ⟨-, ⟨⟩⟩ := Option.ite_none_right_eq_some.mp h
    exact hs.abort hfed
  | resume =>
    obtain ⟨ht, ⟨⟩⟩ := Option.ite_none_right_eq_some.mp h
    exact hs.resume hsw ht
  | restart =>
    cases h
    exact ⟨List.forall_mem_nil _, List.forall_mem_nil _, List.forall_mem_nil _, by simp [Draining, restart]⟩
  | startup netburst keep =>
    obtain ⟨-, ⟨⟩⟩ := Option.ite_none_right_eq_some.mp h
    exact hs.mono rfl rfl (fun _ h => h) (fun _ h => List.mem_of_mem_take h) rfl fun h => absurd h
      not_draining_startup
  | startupSkip | close =>
    obtain ⟨-, ⟨⟩⟩ := Option.ite_none_right_eq_some.mp h
    exact hs.move s.status (by simp [Draining])
  | request t =>
    obtain ⟨m, ms, hp, -, rfl⟩ := request_cases h
    exact hs.handleRequest hfed hp
  | work t => exact hs.work hfed (hok.work rfl) h
  | response i =>
    obtain ⟨-, h⟩ := Option.ite_none_right_eq_some.mp h
    obtain ⟨T, ok, hT, hdone, rfl⟩ := takeDone_cases h
    exact hs.handleResponse hT hdone
  | finishResponse i =>
    obtain ⟨-, h⟩ := Option.ite_none_right_eq_some.mp h
    obtain ⟨T, ok, hT, hdone, rfl⟩ := takeDone_cases h
    exact hs.finishResponse hfed hT hdone
  | transmit i =>
    obtain ⟨T, t, hT, ht, rfl⟩ := advance_cases h
    exact hs.advance hT fun hd hc => done_of_step hs (List.mem_of_getElem? hT) hc (.inl (hd ▸ ht))
  | start i =>
    obtain ⟨T, t, hT, ht, rfl⟩ := advance_cases h
    exact hs.advance hT fun hd hc => done_of_step hs (List.mem_of_getElem? hT) hc (.inr (.inl (hd ▸ ht)))
  | cancel i =>
    obtain ⟨T, t, hT, ht, rfl⟩ := advance_cases h
    exact hs.advance hT fun hd hc => done_of_step hs (List.mem_of_getElem? hT) hc (.inr (.inr (hd ▸ ht)))
  | answer i ok => exact hs.answered h
  | sendPdu | sendEdu | sendReliableEdu | flush | cleanupActive | cleanupQueued | clear | abortNext =>
    obtain ⟨hview, hp⟩ := step_view h rfl rfl
    obtain ⟨hact, hacc⟩ := step_active hsw h rfl
    have hown := step_own h rfl
    simp only [own, view, Prod.mk.injEq] at hown hview
    refine hs.mono hview.2.2.1 hview.2.2.2.1 (fun T hT => hown.2.2 ▸ hT) hact hacc fun hd => hs.draining ?_
    simpa only [Draining, hp] using hd

/-- What a run under the condition keeps. -/
structure Reliable (cfg : SenderConfig) (s : Sender) : Prop where
  swept : s.Swept cfg
  none : cfg.kind ≠ .federation → s.reliable = []
  readable : ∀ r ∈ s.reliable, cfg.readable r
  delivered : cfg.kind = .federation → s.Delivered cfg

theorem reliable_init : Reliable cfg {} :=
  ⟨⟨nofun, nofun, trivial, nofun, nofun⟩, fun _ => rfl, List.forall_mem_nil _, fun _ =>
    ⟨List.forall_mem_nil _, List.forall_mem_nil _, List.forall_mem_nil _, by simp [Draining]⟩⟩

theorem Reliable.step (hs : s.Reliable cfg) (hok : Covered cfg a s) (hstep : s.step cfg a = some s') :
    s'.Reliable cfg := by
  refine ⟨hs.swept.step hstep, fun hn => ?_, fun r hr => ?_, fun hfed => (hs.delivered hfed).step
    hfed hs.swept hok hstep⟩
  · have hnil := hs.none hn
    cases step_reliable hs.swept hstep with
    | same h => rw [h, hnil]
    | queued hfed h => exact absurd hfed hn
    | aborted hab h => exact absurd (hs.swept.fed hab) hn
    | cleared h => exact h
    | delivered hp h => rw [h, hnil]; rfl
  · cases step_reliable hs.swept hstep with
    | same h => exact hs.readable r (h ▸ hr)
    | queued hfed h =>
      rw [h] at hr
      rcases RowTable.mem_put.mp hr with rfl | hr
      · exact hok.json
      · exact hs.readable r hr
    | aborted hab h => exact hs.readable r (h r hr)
    | cleared h => simp [h] at hr
    | delivered hp h => exact hs.readable r (mem_of_mem_removeAll r (h ▸ hr))

end Sender

/-- In every run in which rows become active, and transactions are put in flight, only
while no other transaction of the generation is in flight and with every active row in
the transaction, and in which reliable EDUs are valid JSON: a row leaves the reliable
table only after a transaction with it was accepted, under an abort, or by a clear. -/
theorem reliable_row_kept {cfg : SenderConfig} {s s' : Sender} {a : SendAction}
    (h : Reaches (Sender.step cfg) (Sender.Covered cfg) {} s) (hok : Sender.Covered cfg a s)
    (hstep : s.step cfg a = some s') {r : Row} (hr : r ∈ s.reliable) (hr' : r ∉ s'.reliable) :
    r ∈ s.accepted ∨ s.aborted ∨ a = .clear .reliable := by
  have hs : s.Reliable cfg := h.invariant Sender.reliable_init fun _ _ _ hs hok h => hs.step hok h
  cases Sender.step_reliable hs.swept hstep with
  | same h => exact absurd (h ▸ hr) hr'
  | queued hfed h => exact absurd (h ▸ RowTable.mem_put.mpr (.inr hr)) hr'
  | aborted hab h => exact .inr (.inl hab)
  | cleared h => exact .inr (.inr rfl)
  | delivered hp h =>
    have hact : r ∈ s.active := by
      by_contra hn
      exact hr' (h ▸ List.mem_filter.mpr ⟨hr, by simpa using hn⟩)
    have hfed : cfg.kind = .federation := by
      by_contra hn
      simp [hs.none hn] at hr
    rcases (hs.delivered hfed).draining hp with hab | hans
    · exact .inr (.inl hab)
    · exact .inl (hans r hact (hs.readable r hr))

open SendAction in
/-- A reliable EDU is left active by an earlier process, the next one starts without a
netburst, and a PDU is delivered. -/
def activeAtStart : List SendAction :=
  [startup true 10, sendReliableEdu "{}", request {}, work {}, work {}, restart, startup false 10, sendPdu [1, 1],
    request {}, work {}, work {}, transmit 0, start 0, answer 0 true, response 0]

theorem reliable_row_lost :
    ¬ ∀ s a s' r, Reaches (Sender.step .plain) (fun _ _ => True) {} s → s.step .plain a = some s' →
      r ∈ s.reliable → r ∉ s'.reliable → r ∈ s.accepted ∨ s.aborted ∨ a = .clear .reliable := by
  intro h
  have hrun : Reaches (Sender.step .plain) (fun _ _ => True) {}
      { reliable := [.edu 1 "{}"], active := [.edu 1 "{}", .pdu [1, 1]], count := 1, status := some .running,
        phase := .okReliable (some 0), accepted := [.pdu [1, 1]] } :=
    Reaches.of_runWhile activeAtStart .init (by decide)
  have hlost := h _ (.work {}) _ (.edu 1 "{}") hrun rfl (by decide) (by decide)
  exact absurd hlost (by decide)

open SendAction in
/-- The EDU is delivered by the process that made it active. -/
theorem reliable_row_delivered :
    ∃ s s' a r, Reaches (Sender.step .plain) (Sender.Covered .plain) {} s ∧ s.step .plain a = some s' ∧
      r ∈ s.reliable ∧ r ∉ s'.reliable ∧ r ∈ s.accepted := by
  have hrun : Reaches (Sender.step .plain) (Sender.Covered .plain) {}
      { reliable := [.edu 1 "{}"], active := [.edu 1 "{}"], count := 1, status := some .running,
        phase := .okReliable (some 0), accepted := [.edu 1 "{}"] } :=
    Reaches.of_runWhile [startup true 10, sendReliableEdu "{}", request {}, work {}, work {}, transmit 0, start 0,
      answer 0 true, response 0] .init (by decide)
  have hkept := reliable_row_kept (a := .work {}) (r := .edu 1 "{}") hrun (by decide) rfl (by decide) (by decide)
  exact ⟨_, _, .work {}, .edu 1 "{}", hrun, rfl, by decide, by decide, hkept.resolve_right (by decide)⟩

end Congruent
