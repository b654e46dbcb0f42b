import Congruent.Trail

/-!
# Access control

A delivered event is appended in a call that found the room's federation not disabled
and its server ACL allowing the delivering server and the sender's. The retry of
rejected outliers comes before these checks, and predecessors pass only those that
were made for the delivered event.
-/

namespace Congruent

def Delivered (log : List Mark) (id : EventId) : Prop := ∃ call origin room value, .delivered call
    origin room id value ∈ log

section
variable (plat : Platform)

/-- An appended event that was delivered has passed the checks of its call: as the
delivered event of it, or as a predecessor. -/
def AppendsAllowed : Mark → List Mark → Prop
  | .appended call room id _ json flag, log => flag = true ∨ Delivered log id →
    ∃ origin id' value, (flag = true → id' = id) ∧ .delivered call origin room id' value ∈ log ∧
      .notDisabled call room ∈ log ∧ .aclAllowed call room origin ∈ log ∧
      ∀ server, senderServer plat json = some server → .aclAllowed call room server ∈ log
  | _, _ => True

/-- At some moment of a call. -/
def During (s₀ s : Server) (call : Nat) (room : RoomId) (P : Server → Prop) : Prop :=
  ∃ t, Path plat s₀ t ∧ Path plat t s ∧ (∃ origin id value, .delivered call origin room id value ∈ t.log) ∧ P t

/-- The marks of the checks tell what was the case during their calls. -/
structure Honest (s₀ s : Server) : Prop where
  disabled : ∀ call room, .notDisabled call room ∈ s.log →
    During plat s₀ s call room fun t => (t.world t.clock).isDisabled room = false
  acl : ∀ call room server, .aclAllowed call room server ∈ s.log →
    During plat s₀ s call room fun t => t.aclCheck plat server room = true

/-- Access control gates every append. -/
def Gated (s₀ s : Server) : Prop := Always (AppendsAllowed plat) s.log ∧ Honest plat s₀ s

/-- No rejected outlier is retried; a copy that is taken in the place of another has its
sender on the same server; and a predecessor that was delivered itself has its sender on
the server that delivers its successor, or on that of the successor's sender. -/
def Gateable : Mark → List Mark → Prop
  | .retried .., _ => False
  | .returned .known _ _ value json, _ => senderServer plat json = senderServer plat value
  | .returned .reused _ _ value json, _ => senderServer plat json = senderServer plat value
  | .returned .refetched _ _ value json, _ => senderServer plat json = senderServer plat value
  | .appended call room id _ json false, log => Delivered log id →
    ∀ origin id' value server, .delivered call origin room id' value ∈ log → senderServer plat json = some server →
      server = origin ∨ senderServer plat value = some server
  | _, _ => True

end

section
variable {plat : Platform} {s₀ s : Server} {room : RoomId} {id : EventId} {value json : Object}

theorem senderServer_same (h : SameBody json value) : senderServer plat json = senderServer plat value := by
  have hget : json.get "sender" = value.get "sender" := by
    rw [← Object.get_strip json (by decide) (by decide), ← Object.get_strip value (by decide) (by decide), h]
  rw [senderServer, hget, senderServer]

section
variable (hred : ∀ v (o x : Object), plat.redact v o = .ok x → x.get "sender" = o.get "sender")

include hred

theorem Derived.sender (h : Derived plat value json) : senderServer plat json = senderServer plat value := by
  rcases h with hb | ⟨v, x, hx, hb⟩
  · exact senderServer_same hb
  · have hget : x.get "sender" = value.get "sender" := by rw [hred v _ x hx, Object.get_remove_ne _ (by decide)]
    rw [senderServer_same hb, senderServer, hget, senderServer]

variable (h : Path plat s₀ s) (h₀ : s₀.log = []) (hc : Always (Gateable plat) s.log)

include h h₀ hc

theorem returned_sender {how : How} (hhow : how ≠ .skipped) (hm : .returned how room id value json ∈ s.log) :
    senderServer plat json = senderServer plat value := by
  obtain ⟨t, _, _, hal, hs⟩ := h.returned h₀ hm
  have hcond := hc.at hs
  cases how with
  | validated => exact Derived.sender hred hal.2
  | refetched => exact hcond
  | skipped => exact absurd rfl hhow
  | known => exact hcond
  | reused => exact hcond

omit hred in
theorem not_retried {call : Nat} : .retried call room id json ∉ s.log := by
  intro hm
  obtain ⟨t, _, _, _, hs⟩ := h.noted h₀ rfl hm
  exact hc.at hs

theorem Entered.gate {call : Nat} (he : Entered plat s.log call room id json) :
    ∃ origin value, .delivered call origin room id value ∈ s.log ∧ .notDisabled call room ∈ s.log ∧
      .aclAllowed call room origin ∈ s.log ∧
      (∀ server, senderServer plat value = some server → .aclAllowed call room server ∈ s.log) ∧
      senderServer plat json = senderServer plat value := by
  cases he with
  | delivered origin value how hd hn ho hs hhow hr =>
    exact ⟨origin, value, hd, hn, ho, hs, returned_sender hred h h₀ hc hhow hr⟩
  | retried origin value _ hr => exact absurd hr (not_retried h h₀ hc)

theorem append_allowed {a : Append} (hw : (Write.append a).Allowed plat s)
    (ha : Gateable plat (s.appendMark plat a) (s.appendLog plat a)) :
    AppendsAllowed plat (s.appendMark plat a) (s.appendLog plat a) := by
  have hsub : ∀ {m : Mark}, m ∈ s.log → m ∈ s.appendLog plat a := fun hm => (suffix_appendLog a).subset hm
  have hjson : senderServer plat (s.appendedJson plat a) = senderServer plat a.json :=
    senderServer_same (withPrevState_strip _ _ _)
  -- a predecessor passes with the checks made for the delivered event
  have hprev : ∀ {id' : EventId} {json' : Object}, a.isTimelineEvent = false →
      Entered plat s.log a.call a.room id' json' → AppendsAllowed plat (s.appendMark plat a)
        (s.appendLog plat a) := by
    intro id' json' hflag he hdel
    obtain ⟨origin, value, hd, hn, ho, hs, _⟩ := he.gate hred h h₀ hc
    rw [hflag] at hdel
    have hdel' : Delivered (s.appendLog plat a) a.pdu.eventId := hdel.resolve_left (by simp)
    refine ⟨origin, id', value, by simp [hflag], hsub hd, hsub hn, hsub ho, fun server hserver => ?_⟩
    unfold Server.appendMark at ha
    rw [hflag] at ha
    rcases ha hdel' origin id' value server (hsub hd) hserver with rfl | hv
    · exact hsub ho
    · exact hsub (hs server hv)
  obtain ⟨hh, -⟩ := hw
  cases hflag : a.isTimelineEvent with
  | true =>
    rw [hflag] at hh
    cases hh with
    | entered he =>
      obtain ⟨origin, value, hd, hn, ho, hs, hv⟩ := he.gate hred h h₀ hc
      refine fun _ => ⟨origin, _, value, fun _ => rfl, hsub hd, hsub hn, hsub ho, fun server hserver => ?_⟩
      rw [hjson, hv] at hserver
      exact hsub (hs server hserver)
  | false =>
    rw [hflag] at hh
    cases hh with
    | fetched id' json' he value how _ _ => exact hprev hflag he
    | promoted id' json' he _ => exact hprev hflag he

end

theorem Path.honest (h : Path plat s₀ s) (h₀ : s₀.log = []) : Honest plat s₀ s where
  disabled call room hm := by
    obtain ⟨t, hp, hr, ⟨hd, hdel⟩, _⟩ := h.noted h₀ rfl hm
    exact ⟨t, hp, hr, hdel, hd⟩
  acl call room server hm := by
    obtain ⟨t, hp, hr, ⟨ha, hdel⟩, _⟩ := h.noted h₀ rfl hm
    exact ⟨t, hp, hr, hdel, ha⟩

end

/-- However jobs are interleaved and however the room's ACL and its disabled flag change,
access control gates every append, as long as no rejected outlier is retried, and
substitute copies and predecessors bring no sender's server that was not checked. -/
theorem serve_gated (plat : Platform) (hred : ∀ v (o x : Object), plat.redact v o = .ok x →
    x.get "sender" = o.get "sender")
    (jobs : List (Nat × Job)) (schedule : List Nat) (s₀ : Server) (h₀ : s₀.log = [])
    (hc : Always (Gateable plat) (serve plat jobs schedule s₀).log) : Gated plat s₀
      (serve plat jobs schedule s₀) := by
  have hpath : Path plat s₀ (serve plat jobs schedule s₀) := serve_path jobs schedule s₀
  refine ⟨hpath.always_appended h₀ (fun m l hm => ?_) fun t a hp hw hs => ?_, hpath.honest h₀⟩
  · cases m with
    | appended call room id prevs json flag => cases hm
    | _ => trivial
  · have hct := hc.of_suffix ((suffix_appendLog a).trans ((List.suffix_cons _ _).trans hs))
    exact append_allowed hred hp h₀ hct hw (hc.at hs)

/-! ## Runs -/

/-- Marks that the conditions on a run speak of. -/
def Mark.gateable : Mark → Bool
  | retried .. | returned .known .. | returned .reused .. | returned .refetched .. | appended _ _
      _ _ _ false => false
  | _ => true

theorem gateable_of_all {plat : Platform} : ∀ {log : List Mark}, log.all Mark.gateable = true →
    Always (Gateable plat) log
  | [], _ => .nil
  | m :: log, h => by
    rw [List.all_cons, Bool.and_eq_true] at h
    refine .cons ?_ (gateable_of_all h.2)
    have hm := h.1
    unfold Gateable
    split <;> trivial

def noticeJobs : List (Nat × Job) :=
  [(100, .pdu "b" (some (wireEvent "m" "m.room.message" "@u:b" none [] ["$c", "$j"] ["$j"])))]

theorem redact_plain_sender (v : RoomVersionId) (o x : Object) (h : Platform.plain.redact v o = .ok x) :
    x.get "sender" = o.get "sender" := by
  cases h
  exact Object.get_insert_ne o _ (by decide)

theorem notice_gated :
    (serve .plain noticeJobs (List.replicate 100 0) (.plain fun _ => .plain)).log.any Mark.isAppended = true ∧
      Gated .plain (.plain fun _ => .plain) (serve .plain noticeJobs (List.replicate 100 0)
        (.plain fun _ => .plain)) := by
  refine ⟨by decide +kernel, ?_⟩
  refine serve_gated .plain redact_plain_sender noticeJobs (List.replicate 100 0) (.plain fun _ => .plain) rfl ?_
  exact gateable_of_all (by decide +kernel)

def Server.disabledWithRejected : Server :=
  let s := Server.plain fun _ => { World.plain with isDisabled := fun _ => true }
  { s with
    eventidPdu := Function.update s.eventidPdu "$m"
      (some (wireEvent "m" "m.room.message" "@u:b" none [] ["$c", "$j"] ["$j"]))
    eventidMetadata := Function.update s.eventidMetadata "$m" (some ⟨true, none⟩)
    rejection := Function.update s.rejection "$m" (some .missingAuthEvent) }

def Mark.isNotDisabled : Mark → Bool
  | notDisabled .. => true
  | _ => false

theorem isNotDisabled_of_appended {plat : Platform} : ∀ {log : List Mark}, Always (AppendsAllowed plat) log →
    (log.any fun m => match m with
      | .appended _ _ _ _ _ true => true
      | _ => false) = true → log.any Mark.isNotDisabled = true
  | m :: log, h, ha => by
    rw [List.any_cons, Bool.or_eq_true] at ha ⊢
    rcases ha with ha | ha
    · split at ha
      · obtain ⟨_, _, _, _, _, hn, _⟩ := h.head (.inl rfl)
        exact .inr (List.any_eq_true.mpr ⟨_, hn, rfl⟩)
      · cases ha
    · exact .inr (isNotDisabled_of_appended h.tail ha)

-- The redelivered message finds its dependencies in the timeline, and the retry appends
-- it before the room's flag is looked at.
theorem disabled_room_appended :
    ¬ ∀ (plat : Platform) (_ : ∀ v (o x : Object), plat.redact v o = .ok x → x.get "sender" = o.get "sender")
      (jobs : List (Nat × Job)) (schedule : List Nat) (s₀ : Server), s₀.log = [] →
      Gated plat s₀ (serve plat jobs schedule s₀) := by
  intro h
  have hg := h .plain redact_plain_sender noticeJobs (List.replicate 100 0) .disabledWithRejected rfl
  have hn := isNotDisabled_of_appended hg.1 (by decide +kernel)
  exact absurd hn (by decide +kernel)

end Congruent
