import Congruent.Trail

/-!
# Only verified events are appended

An event is appended after its own checks, or because it is already known, or by
the retry of a rejected outlier, or as a stored predecessor. The last three trust
what is stored, and events are stored before, or in spite of, verification.
-/

namespace Congruent

section
variable (plat : Platform)

/-- Verified by `handle_outlier_pdu` itself. -/
abbrev VouchedHere (log : List Mark) (id : EventId) (json : Object) : Prop :=
  Vouched plat (· = .handleOutlier) log id json

/-- Every copy of an event was stored after its signatures were verified. -/
def CleanCopies (s₀ : Server) (log : List Mark) (id : EventId) : Prop :=
  s₀.eventidPdu id = none ∧
    ∀ room json before, .stored room id json :: before <:+ log → VouchedHere plat before id json

/-- Stored events are taken up only when all their copies are clean, and the second
copy of an event is the one that was verified. -/
def TakesUpClean (s₀ : Server) : Mark → List Mark → Prop
  | .returned .known _ id _ _, log => CleanCopies plat s₀ log id
  | .returned .reused _ id _ json, log =>
    CleanCopies plat s₀ log id ∧ ∃ room x, .stored room id x ∈ log ∧ SameBody json x
  | .returned .refetched room id _ json, log =>
    ∃ v x, .verified .handleOutlier room v id x .all ∈ log ∧ SameBody json x
  | .retried _ _ id _, log => CleanCopies plat s₀ log id
  | .promoted _ id _, log => CleanCopies plat s₀ log id
  | _, _ => True

def AppendsVerified : Mark → List Mark → Prop
  | .appended _ _ id _ json _, log => VouchedHere plat log id json
  | _, _ => True

end

section
variable {plat : Platform} {s₀ s t : Server} {room : RoomId} {id : EventId} {value json : Object}

theorem vouched_of_suffix {l l' : List Mark} (h : l <:+ l') (hv : VouchedHere plat l id json) :
    VouchedHere plat l' id json :=
  hv.mono fun _ hm => h.subset hm

theorem CleanCopies.vouched {log : List Mark} (h : CleanCopies plat s₀ log id)
    (hm : .stored room id json ∈ log) : VouchedHere plat log id json := by
  obtain ⟨l, l', rfl⟩ := List.append_of_mem hm
  have hs : .stored room id json :: l' <:+ l ++ .stored room id json :: l' := List.suffix_append _ _
  exact vouched_of_suffix ((List.suffix_cons _ _).trans hs) (h.2 room json l' hs)

theorem CleanCopies.copied {log : List Mark} (h : CleanCopies plat s₀ log id) (hc : Copied s₀ log id json) :
    VouchedHere plat log id json := by
  rcases hc with h₀ | ⟨room, hm⟩
  · rw [h.1] at h₀
    cases h₀
  · exact h.vouched hm

section
variable (h : Path plat s₀ s) (h₀ : s₀.log = []) (hc : Always (TakesUpClean plat s₀) s.log)

include h h₀ hc

theorem returned_vouched {how : How} (hhow : how ≠ .skipped) (hm : .returned how room id value json ∈ s.log) :
    VouchedHere plat s.log id json := by
  obtain ⟨t, hp, hr, hal, hs⟩ := h.returned h₀ hm
  have hcond := hc.at hs
  refine vouched_of_suffix (Path.suffix hr) ?_
  cases how with
  | validated => exact hal.1
  | refetched =>
    obtain ⟨v, x, hv, hb⟩ := hcond
    exact .inr ⟨_, room, v, x, .all, rfl, hv, hb⟩
  | skipped => exact absurd rfl hhow
  | known => exact CleanCopies.copied hcond (hp.readBack h₀ hal.1)
  | reused =>
    obtain ⟨hclean, room', x, hx, hb⟩ := hcond
    exact (hclean.vouched hx).same hb

theorem retried_vouched {call : Nat} (hm : .retried call room id json ∈ s.log) : VouchedHere
    plat s.log id json := by
  obtain ⟨t, hp, hr, hal, hs⟩ := h.noted h₀ rfl hm
  exact vouched_of_suffix (Path.suffix hr) (CleanCopies.copied (hc.at hs) (hp.readBack h₀ hal.2))

theorem promoted_vouched (hm : .promoted room id json ∈ s.log) : VouchedHere plat s.log id json := by
  obtain ⟨t, hp, hr, hal, hs⟩ := h.noted h₀ rfl hm
  exact vouched_of_suffix (Path.suffix hr) (CleanCopies.copied (hc.at hs) (hp.readBack h₀ hal.2))

theorem handed_vouched {call : Nat} {flag : Bool} (hh : Handed plat s.log call room id json flag) :
    VouchedHere plat s.log id json := by
  cases hh with
  | entered he =>
    cases he with
    | delivered origin value how _ _ _ _ hhow hr => exact returned_vouched h h₀ hc hhow hr
    | retried origin value _ hr => exact retried_vouched h h₀ hc hr
  | fetched _ _ _ value how hhow hr => exact returned_vouched h h₀ hc hhow hr
  | promoted _ _ _ hp => exact promoted_vouched h h₀ hc hp

end

theorem path_appends_verified (h : Path plat s₀ s) (h₀ : s₀.log = []) (hc : Always (TakesUpClean plat s₀) s.log) :
    Always (AppendsVerified plat) s.log := by
  refine h.always_appended h₀ (fun m l hm => ?_) fun t a hp hw hs => ?_
  · cases m with
    | appended call room id prevs json flag => cases hm
    | _ => trivial
  · have hsuf : t.log <:+ t.appendLog plat a := suffix_appendLog a
    have hct := hc.of_suffix (hsuf.trans ((List.suffix_cons _ _).trans hs))
    exact vouched_of_suffix hsuf ((handed_vouched hp h₀ hct hw.1).same (withPrevState_strip _ _ _))

end

/-- However jobs are interleaved, as long as stored events are taken up only when all
their copies were verified before they were stored, every event appended to a timeline
was verified by `handle_outlier_pdu`. -/
theorem serve_appends_verified (plat : Platform) (jobs : List (Nat × Job)) (schedule : List Nat) (s₀ : Server)
    (h₀ : s₀.log = []) (hc : Always (TakesUpClean plat s₀) (serve plat jobs schedule s₀).log) :
    Always (AppendsVerified plat) (serve plat jobs schedule s₀).log :=
  path_appends_verified (serve_path jobs schedule s₀) h₀ hc

/-! ## Runs -/

/-- Marks of stored events being taken up. -/
def Mark.takesUp : Mark → Bool
  | returned .known .. | returned .reused .. | returned .refetched .. | retried .. | promoted .. => true
  | _ => false

def Mark.isVerified : Mark → Bool
  | verified .. => true
  | _ => false

theorem takesUpClean_of_all {plat : Platform} {s₀ : Server} : ∀ {log : List Mark},
    log.all (fun m => !m.takesUp) = true →
    Always (TakesUpClean plat s₀) log
  | [], _ => .nil
  | m :: log, h => by
    rw [List.all_cons, Bool.and_eq_true] at h
    refine .cons ?_ (takesUpClean_of_all h.2)
    have hm := h.1
    unfold TakesUpClean
    split <;> trivial

theorem isVerified_of_appended {plat : Platform} (hb : plat.bypassedSignatureEvents = []) :
    ∀ {log : List Mark}, Always (AppendsVerified plat) log → log.any Mark.isAppended = true →
    log.any Mark.isVerified = true
  | m :: log, h, ha => by
    rw [List.any_cons, Bool.or_eq_true] at ha ⊢
    rcases ha with ha | ha
    · cases m with
      | appended call room id prevs json flag =>
        rcases h.head with hm | ⟨site, room, v, value, result, _, hm, _⟩
        · rw [hb] at hm
          cases hm
        · exact .inr (List.any_eq_true.mpr ⟨_, hm, rfl⟩)
      | _ => cases ha
    · exact .inr (isVerified_of_appended hb h.tail ha)

def message : Object := wireEvent "m" "m.room.message" "@u:b" none [] ["$c", "$j"] ["$j"]

def messageJobs : List (Nat × Job) := [(100, .pdu "b" (some message))]

theorem message_appends_verified :
    (serve .plain messageJobs (List.replicate 100 0) (.plain fun _ => .plain)).log.any Mark.isAppended = true ∧
      Always (AppendsVerified .plain) (serve .plain messageJobs (List.replicate 100 0)
        (.plain fun _ => .plain)).log := by
  refine ⟨by decide +kernel, ?_⟩
  refine serve_appends_verified .plain messageJobs (List.replicate 100 0) (.plain fun _ => .plain) rfl ?_
  exact takesUpClean_of_all (by decide +kernel)

def World.forged : World := { World.plain with verify := fun _ _ => .error "signature is wrong" }

/-- Two deliveries of the message, one after the other. -/
def twiceJobs : List (Nat × Job) := [(100, .pdu "b" (some message)), (100, .pdu "b" (some message))]

def twiceSchedule : List Nat := List.replicate 100 0 ++ List.replicate 100 1

-- The first delivery stores the forged message with its failed signatures, and the
-- second finds a rejected outlier with all it depends on.
theorem forged_message_appended :
    ¬ ∀ (plat : Platform) (jobs : List (Nat × Job)) (schedule : List Nat) (s₀ : Server), s₀.log = [] →
      Always (AppendsVerified plat) (serve plat jobs schedule s₀).log := by
  intro h
  have ha := h .plain twiceJobs twiceSchedule (.plain fun _ => .forged) rfl
  have hv := isVerified_of_appended rfl ha (by decide +kernel)
  exact absurd hv (by decide +kernel)

end Congruent
