import Congruent.DelayedEventPhases

/-!
# What becomes of a delayed event

An event is sent at most once, over all restarts of the server, and what is recorded and
answered of it is what became of it.
-/

namespace Congruent.DelayedEvents

section
variable {f : FinalizedDelayedEvent}

theorem FinalizedDelayedEvent.status_intoData (f : FinalizedDelayedEvent) (x : String) :
    (f.intoData x).status = f.outcome := by
  simp [DelayedEventData.status, FinalizedDelayedEvent.intoData, FinalizedDelayedEvent.outcome]

theorem FinalizedDelayedEvent.outcome_eq_send : f.outcome = .send ↔ ∃ e, f.eventId = some e := by
  unfold FinalizedDelayedEvent.outcome
  cases f.eventId with
  | none => cases f.error <;> simp
  | some e => simp

theorem FinalizedDelayedEvent.eventId_of_outcome (h : f.outcome = .cancel ∨ f.outcome = .error) :
    f.eventId = none := by
  cases hevent : f.eventId with
  | none => rfl
  | some e =>
    rw [FinalizedDelayedEvent.outcome_eq_send.mpr ⟨e, hevent⟩] at h
    simp at h

def FinalizedDelayedEvent.Settles (f : FinalizedDelayedEvent) (action : UpdateAction) : Prop :=
  action = .send ∧ f.outcome = .send ∨ action = .cancel ∧ f.outcome = .cancel

theorem settles_of_checkOutcome {action : UpdateAction} (h : checkOutcome f action = .ok ()) : f.Settles
    action := by
  unfold checkOutcome at h
  split at h
  · rename_i hout
    exact .inl ⟨rfl, hout⟩
  · rename_i hout
    exact .inr ⟨rfl, hout⟩
  · split at h
    · split at h <;> cases h
    · cases h
  · cases h

end

section
variable {s s' : World} {x : String}

theorem Phase.timeline_length_le (p : Phase) (f : Option FinalizedDelayedEvent) : (p.timeline f).length ≤ 1 := by
  cases p with
  | recorded | closed => exact Option.length_toList_le
  | _ => simp [timeline]

theorem Inv.recorded (h : Inv s) {f : FinalizedDelayedEvent} (hf : s.delayidFinalizeddelayedevent.get x = some f) :
    s.sentAs x = f.eventId.toList := by
  obtain ⟨p, hp⟩ := h.phase x
  have hfinal : (s.view x).finalized = some f := hf
  have hsome := hp.finalized
  have htimeline := hp.timeline
  rw [hfinal] at hsome htimeline
  refine htimeline.trans ?_
  cases p with
  | recorded | closed => rfl
  | _ => cases hsome

end

/-- A message of a user, due at 5. -/
def message : ScheduledDelayedEvent := ⟨"m.room.message", none, "\x7b\x7d", "@u:a", "!r:a", 2, 3⟩

def queued (delayId : String) : List Action :=
  .queue delayId message :: List.replicate 4 (.proceed 0 0 (.error (.other "")))

-- a restart that read the row puts it back after the event is sent; the next start sends it again
example : (runWhile step (fun _ _ => True)
    ([.load, .enroll] ++ queued "d" ++ [.receive, .update "d" .restart, .proceed 1 3 (.ok ""), .pop, .submit 7] ++
      List.replicate 5 (.proceed 2 7 (.ok "$e")) ++
      [.proceed 1 7 (.ok ""), .resume, .crash, .load, .enroll, .pop, .submit 9] ++
      List.replicate 5 (.proceed 0 9 (.ok "$f"))) .new).map (·.sentAs "d") = some ["$e", "$f"] := by
  decide

section
variable {s s' : World} {x : String}

/-! ## Answers -/

def World.Ended (s : World) (x : String) (action : UpdateAction) : Prop :=
  ∃ f, s.delayidFinalizeddelayedevent.get x = some f ∧ f.Settles action

/-- A call to send or cancel an event works on that, and succeeds when the event ended so. -/
def Call.Answers (s : World) (action : UpdateAction) (c : Call) : Prop :=
  match c.stage with
  | .find b => b = action
  | .check b => b = action
  | .checkAgain b => b = action
  | .claim _ b _ => b = action
  | .act _ b _ _ => b = action
  | .relist _ => True
  | .record f result => result = .ok () → f.Settles action
  | .removeRow _ result => result = .ok () → s.Ended c.delayId action
  | .delRelation _ result => result = .ok () → s.Ended c.delayId action
  | .finished result => result = .ok () → s.Ended c.delayId action
  | _ => False

def Answered (s : World) : Prop :=
  ∀ c ∈ s.calls, ∀ action, c.request = .update action → action ≠ .restart → c.Answers s action

theorem World.Ended.kept {action : UpdateAction} (h : s.Ended x action) (hkept : (s.view x).Kept (s'.view x)) :
    s'.Ended x action := by
  obtain ⟨f, hf, hsettles⟩ := h
  exact ⟨f, hkept.finalized f hf, hsettles⟩

theorem Call.Answers.kept {c : Call} {action : UpdateAction} (h : c.Answers s action)
    (hkept : (s.view c.delayId).Kept (s'.view c.delayId)) : c.Answers s' action := by
  unfold Call.Answers at h ⊢
  split at h
  all_goals first | exact h | exact fun hresult => (h hresult).kept hkept

theorem Inv.kept (h : Inv s) {a : Action} (hok : careful a s = true) (hs : DelayedEvents.step a s = some s')
    (x : String) : (s.view x).Kept (s'.view x) := by
  obtain ⟨p, hp⟩ := h.phase x
  obtain ⟨p', -, -, hkept⟩ := h.evolves hok hs hp
  exact hkept

/-- What a call goes on with answers its request as well. -/
theorem answers_proceed {k now : Nat} {sent : Except Error String} {c : Call} {action : UpdateAction}
    (hs : proceed k now sent c s = some s') (hanswers : c.Answers s action) (haction : action ≠ .restart) :
    ∃ stage, s'.calls = s.calls.set k { c with stage := stage } ∧
      Call.Answers s' action { c with stage := stage } := by
  cases hstage : c.stage with
  | find b =>
    simp only [Call.Answers, hstage] at hanswers
    simp only [proceed, hstage] at hs
    split at hs
    · cases hs
      exact ⟨_, rfl, hanswers⟩
    · rw [if_neg (hanswers ▸ haction)] at hs
      cases hs
      exact ⟨_, rfl, hanswers⟩
  | claim event b leave =>
    simp only [Call.Answers, hstage] at hanswers
    simp only [proceed, hstage] at hs
    split at hs
    · cases hs
      exact ⟨_, rfl, hanswers⟩
    · cases hs
      exact ⟨_, rfl, hanswers⟩
  | act event b leave timestamp =>
    simp only [Call.Answers, hstage] at hanswers
    subst hanswers
    cases b with
    | restart => exact absurd rfl haction
    | cancel =>
      simp only [proceed, hstage, Option.some.injEq] at hs
      subst hs
      exact ⟨_, rfl, fun _ => .inr ⟨rfl, rfl⟩⟩
    | send =>
      cases sent with
      | ok eventId =>
        simp only [proceed, hstage, Option.some.injEq] at hs
        subst hs
        exact ⟨_, rfl, fun _ => .inl ⟨rfl, rfl⟩⟩
      | error error =>
        simp only [proceed, hstage] at hs
        split at hs
        · cases hs
          exact ⟨_, rfl, trivial⟩
        · cases hs
          exact ⟨_, rfl, fun hresult => by cases hresult⟩
  | relist error =>
    simp only [proceed, hstage, Option.some.injEq] at hs
    subst hs
    exact ⟨_, rfl, fun hresult => by cases hresult⟩
  | record f result =>
    simp only [Call.Answers, hstage] at hanswers
    simp only [proceed, hstage, Option.some.injEq] at hs
    subst hs
    exact ⟨_, rfl, fun hresult => ⟨f, SortedMap.get_insert_self _ _ _, hanswers hresult⟩⟩
  | removeRow relation result | delRelation relation result =>
    simp only [Call.Answers, hstage] at hanswers
    simp only [proceed, hstage, Option.some.injEq] at hs
    subst hs
    exact ⟨_, rfl, hanswers⟩
  | check b =>
    simp only [Call.Answers, hstage] at hanswers
    subst hanswers
    simp only [proceed, hstage] at hs
    split at hs
    · cases hs
      exact ⟨_, rfl, rfl⟩
    · rename_i f hf
      cases hs
      exact ⟨_, rfl, fun hresult => ⟨f, hf, settles_of_checkOutcome hresult⟩⟩
  | checkAgain b =>
    simp only [Call.Answers, hstage] at hanswers
    subst hanswers
    simp only [proceed, hstage, Option.some.injEq] at hs
    subst hs
    refine ⟨_, rfl, fun hresult => ?_⟩
    cases hf : s.delayidFinalizeddelayedevent.get c.delayId with
    | none =>
      rw [hf] at hresult
      cases hresult
    | some f =>
      rw [hf] at hresult
      exact ⟨f, hf, settles_of_checkOutcome hresult⟩
  | finished result => simp only [proceed, hstage, reduceCtorEq] at hs
  | putRow event | putRelation event | enlist submissionTime | announce submissionTime | putRestarted event =>
    simp only [Call.Answers, hstage] at hanswers

theorem Answered.step (h : Answered s) (hinv : Inv s) {a : Action} (hok : careful a s = true)
    (hs : DelayedEvents.step a s = some s') : Answered s' := by
  have hold : ∀ c ∈ s.calls, ∀ action, c.request = .update action → action ≠ .restart → c.Answers s' action :=
    fun c hc action hreq haction => (h c hc action hreq haction).kept (hinv.kept hok hs c.delayId)
  have hnew : ∀ {c : Call}, (∀ action, c.request = .update action → action ≠ .restart → c.Answers s' action) →
      s'.calls = s.calls ++ [c] → Answered s' := by
    intro c hc hcalls d hd
    rw [hcalls] at hd
    rcases List.mem_append.mp hd with hd | hd
    · exact hold d hd
    · exact List.mem_singleton.mp hd ▸ hc
  cases a with
  | queue delayId event =>
    cases hs
    exact hnew (fun action hreq => by cases hreq) rfl
  | update delayId action =>
    cases hs
    refine hnew (fun action hreq _ => ?_) rfl
    cases hreq
    rfl
  | proceed k now sent =>
    obtain ⟨c, hk, hs⟩ := Option.bind_eq_some_iff.mp hs
    intro d hd action hreq haction
    obtain ⟨stage, hcalls⟩ := World.calls_proceed hs
    rw [hcalls] at hd
    rcases mem_set_of_some hk hd with rfl | ⟨j, -, hj⟩
    · obtain ⟨stage', hcalls', hanswers⟩ :=
        answers_proceed hs (h c (List.mem_of_getElem? hk) action hreq haction) haction
      have hget := getElem?_set_of_some hk { c with stage := stage } k
      rw [← hcalls, hcalls', getElem?_set_of_some hk, if_pos rfl, if_pos rfl] at hget
      exact Option.some.inj hget ▸ hanswers
    · exact hold d (List.mem_of_getElem? hj) action hreq haction
  | drop k =>
    simp only [DelayedEvents.step] at hs
    split at hs
    · cases hs
    · rename_i c _ hk
      cases hs
      intro d hd action hreq haction
      rcases mem_set_of_some hk hd with rfl | ⟨j, -, hj⟩
      · exact fun hresult => by cases hresult
      · exact hold d (List.mem_of_getElem? hj) action hreq haction
    · cases hs
  | submit now =>
    simp only [DelayedEvents.step] at hs
    split at hs
    · split at hs
      · cases hs
        exact hold
      · split at hs
        · cases hs
          exact hnew (fun action hreq => by cases hreq) rfl
        · cases hs
          exact hold
    · cases hs
  | crash =>
    cases hs
    exact fun d hd => absurd hd List.not_mem_nil
  | load | enroll | receive | pop | push | resume =>
    simp only [DelayedEvents.step] at hs
    repeat' split at hs
    all_goals first | cases hs; exact hold | cases hs

end

end Congruent.DelayedEvents
