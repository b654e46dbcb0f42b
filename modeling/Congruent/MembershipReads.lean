import Congruent.Escalation

/-!
# What a membership change is decided on

`valid_membership_change` reads the create event, the memberships of two users, the
power levels, the join rules and the user named by a restricted join, and then
decides. Here the reads are told apart from the decision: when they succeed, which of
them a decision depends on, and when one of them unwinds.
-/

namespace Congruent

/-! ## Results without their errors -/

/-- The check returns. -/
def Succeeds {ε α : Type} (x : Except ε α) : Prop := ∃ a, x = .ok a

/-- An `unwrap` fails. -/
def Panics {α : Type} (x : Except Error α) : Prop := ∃ why, x = .error (.panic why)

section
variable {α β : Type}

theorem toOption_eq_some {ε : Type} {x : Except ε α} {a : α} : x.toOption = some a ↔ x = .ok a := by
  cases x <;> simp [Except.toOption]

theorem toOption_eq {ε : Type} {x y : Except ε α} :
    x.toOption = y.toOption ↔ ∀ a, x = .ok a ↔ y = .ok a := by
  rw [Option.ext_iff]
  simp only [toOption_eq_some]

@[simp]
theorem panics_ok (a : α) : ¬ Panics (.ok a : Except Error α) := by
  rintro ⟨why, h⟩
  cases h

@[simp]
theorem panics_liftDe (x : Except DeError α) : ¬ Panics (liftDe x) := by
  rintro ⟨why, h⟩
  cases x <;> cases h

theorem panics_bind {x : Except Error α} {f : α → Except Error β} :
    Panics (x >>= f) ↔ Panics x ∨ ∃ a, x = .ok a ∧ Panics (f a) := by
  cases x with
  | error e => simp [Panics, bind, Except.bind]
  | ok a => simp [Panics, bind, Except.bind]

end

/-! ## The creators of the room -/

section
variable (c : Codec) (v : RoomVersion) (create : Pdu)

/-- The creator is known: the versions that name it by the sender, or power levels
that make it irrelevant, or a create content that decodes and has one. -/
def KnowsCreator (havePls : Bool) : Prop :=
  v.explicitlyPrivilegeRoomCreators = true ∨ v.useRoomCreateSender = true ∨ havePls = true ∨
    ∃ content creator, c.roomCreate create.content = .ok content ∧ content.creator = some creator

variable {c v create}

theorem isCreator_cases (creators : List UserId) (user : UserId) (havePls : Bool) :
    KnowsCreator c v create havePls ∧ Succeeds (isCreator c v creators create user havePls) ∨
      ¬ KnowsCreator c v create havePls ∧ Panics (isCreator c v creators create user havePls) := by
  unfold isCreator KnowsCreator
  by_cases hv : v.explicitlyPrivilegeRoomCreators = true
  · refine Or.inl ⟨Or.inl hv, ?_⟩
    rw [if_pos hv]
    split
    · exact ⟨_, rfl⟩
    · split
      · exact ⟨_, rfl⟩
      · split <;> exact ⟨_, rfl⟩
  by_cases hs : v.useRoomCreateSender = true
  · refine Or.inl ⟨Or.inr (Or.inl hs), ?_⟩
    cases havePls <;> simp [hv, hs, Succeeds]
  cases havePls with
  | true => exact Or.inl ⟨Or.inr (Or.inr (Or.inl rfl)), by simp [hv, hs, Succeeds]⟩
  | false =>
    simp only [hv, hs, Bool.false_eq_true, Bool.false_and, Bool.not_false, if_true, if_false, false_or]
    cases hc : c.roomCreate create.content with
    | error e => exact Or.inr ⟨by simp, _, rfl⟩
    | ok content =>
      cases hcr : content.creator with
      | none => exact Or.inr ⟨by simp [hcr], by simp [hcr, Panics]⟩
      | some creator => exact Or.inl ⟨⟨content, creator, rfl, hcr⟩, by simp [hcr, Succeeds]⟩

theorem isCreator_succeeds (creators : List UserId) (user : UserId) {havePls : Bool} :
    Succeeds (isCreator c v creators create user havePls) ↔ KnowsCreator c v create havePls := by
  refine ⟨fun h => ?_, fun h => ?_⟩
  · by_contra hk
    obtain ⟨-, why, hp⟩ := (isCreator_cases creators user havePls).resolve_left fun hk' => hk hk'.1
    obtain ⟨b, hb⟩ := h
    rw [hp] at hb
    cases hb
  · exact ((isCreator_cases creators user havePls).resolve_right fun hn => hn.1 h).2

theorem isCreator_panics (creators : List UserId) (user : UserId) {havePls : Bool} :
    Panics (isCreator c v creators create user havePls) ↔ ¬ KnowsCreator c v create havePls := by
  refine ⟨?_, fun h => ((isCreator_cases creators user havePls).resolve_left fun hk => h hk.1).2⟩
  rintro ⟨why, hp⟩ hk
  obtain ⟨b, hb⟩ := (isCreator_succeeds creators user).mpr hk
  rw [hp] at hb
  cases hb

end

/-! ## The reads and the decision -/

section
variable (c : Codec) (v : RoomVersion)

/-- The join rule of the room, `invite` without an event. -/
def joinRuleOf (joinRules : Option Pdu) : Except DeError JoinRule :=
  match joinRules with
  | some jr => do .ok (← c.roomJoinRules jr.content).joinRule
  | none => .ok .invite

/-- The users that count as creators. -/
def creatorsOf (create : Pdu) (createContent : RoomCreateContentFields) : List UserId :=
  create.sender :: if v.explicitlyPrivilegeRoomCreators then decodedCreators c createContent else []

def memberPower (creators : List UserId) (levels : RoomPowerLevelsEventContent) (user : UserId) : Int :=
  if v.explicitlyPrivilegeRoomCreators && user ∈ creators then intMax
  else (levels.users.lookup user).getD levels.usersDefault

def requestedThirdPartyInvite (event : Pdu) : Option ThirdPartyInvite :=
  (event.content.optional "third_party_invite").bind fun tp => (c.thirdPartyInvite tp).toOption

def membershipVerdict (event : Pdu) (currentThirdPartyInvite : Option Pdu) (create : Pdu)
    (requested : MembershipState) (facts : MembershipFacts) : Bool :=
  match requested with
  | .join => facts.allowJoin v event.prevEvents create.eventId
  | .invite => facts.allowInvite c (requestedThirdPartyInvite c event) currentThirdPartyInvite
  | .leave => facts.allowLeave
  | .ban => facts.allowBan
  | .knock => v.allowKnocking && facts.allowKnock v
  | .custom _ => false

variable (target : UserId) (targetMember : Option Pdu) (sender : UserId) (senderMember powerLevels : Option Pdu)
  (create : Pdu)

/-- What is read for every requested membership, into the facts of the decision. -/
structure MembershipRead (createContent : RoomCreateContentFields) (facts : MembershipFacts) : Prop where
  content : RoomCreateContentFields.parse create.content = .ok createContent
  isSender : facts.sender = sender
  isTarget : facts.target = target
  senderMembership : membershipOrLeave c senderMember = .ok facts.senderMembership
  targetMembership : membershipOrLeave c targetMember = .ok facts.targetMembership
  levels : membershipPowerLevels c powerLevels = .ok facts.levels
  senderPower : facts.senderPower = memberPower v (creatorsOf c v create createContent) facts.levels sender
  targetPower : facts.targetPower = memberPower v (creatorsOf c v create createContent) facts.levels target
  senderCreator : isCreator c v (creatorsOf c v create createContent) create sender powerLevels.isSome =
    .ok facts.senderCreator
  targetCreator : isCreator c v (creatorsOf c v create createContent) create target powerLevels.isSome =
    .ok facts.targetCreator

variable (event : Pdu) (currentThirdPartyInvite joinRules : Option Pdu) (userForJoinAuth : Option UserId)
  (userForJoinAuthMembership : MembershipState)

theorem validMembershipChange_eq :
    validMembershipChange c v target targetMember sender senderMember event currentThirdPartyInvite powerLevels
        joinRules userForJoinAuth userForJoinAuthMembership create = (do
      let createContent ← liftDe (RoomCreateContentFields.parse create.content)
      let requested ← liftDe (membershipOf c event.content)
      let senderMembership ← liftDe (membershipOrLeave c senderMember)
      let targetMembership ← liftDe (membershipOrLeave c targetMember)
      let levels ← membershipPowerLevels c powerLevels
      let joinRule ← liftDe (joinRuleOf c joinRules)
      let creators := creatorsOf c v create createContent
      let authIsValid ← joinAuthIsValid c v creators create powerLevels userForJoinAuth userForJoinAuthMembership
      let senderCreator ← isCreator c v creators create sender powerLevels.isSome
      let targetCreator ← isCreator c v creators create target powerLevels.isSome
      .ok (membershipVerdict c v event currentThirdPartyInvite create requested
        ⟨sender, target, senderMembership, targetMembership, memberPower v creators levels sender,
          memberPower v creators levels target, senderCreator, targetCreator, joinRule, levels, authIsValid⟩)) := by
  cases joinRules with
  | none => rfl
  | some jr =>
    unfold validMembershipChange joinRuleOf
    simp only
    cases c.roomJoinRules jr.content <;> rfl

theorem validMembershipChange_eq_ok (b : Bool) :
    validMembershipChange c v target targetMember sender senderMember event currentThirdPartyInvite powerLevels
        joinRules userForJoinAuth userForJoinAuthMembership create = .ok b ↔
      ∃ createContent requested facts,
        MembershipRead c v target targetMember sender senderMember powerLevels create createContent facts ∧
        membershipOf c event.content = .ok requested ∧ joinRuleOf c joinRules = .ok facts.joinRules ∧
        joinAuthIsValid c v (creatorsOf c v create createContent) create powerLevels userForJoinAuth
          userForJoinAuthMembership = .ok facts.joinAuthIsValid ∧
        membershipVerdict c v event currentThirdPartyInvite create requested facts = b := by
  rw [validMembershipChange_eq]
  simp only [bind_eq_ok, liftDe_eq_ok, Except.ok.injEq]
  constructor
  · rintro ⟨cc, hcc, asked, hasked, sm, hsm, tm, htm, levels, hl, rule, hr, valid, hvalid, sc, hsc, tc, htc, hb⟩
    exact ⟨cc, asked, ⟨sender, target, sm, tm, _, _, sc, tc, rule, levels, valid⟩,
      ⟨hcc, rfl, rfl, hsm, htm, hl, rfl, rfl, hsc, htc⟩, hasked, hr, hvalid, hb⟩
  · rintro ⟨cc, asked, facts, hread, hasked, hr, hvalid, hb⟩
    refine ⟨cc, hread.content, asked, hasked, _, hread.senderMembership, _, hread.targetMembership, _,
      hread.levels, _, hr,
      _, hvalid, _, hread.senderCreator, _, hread.targetCreator, ?_⟩
    rw [← hread.senderPower, ← hread.targetPower, ← hread.isSender, ← hread.isTarget]
    exact hb

def AuthoriserDecodes (powerLevels : Option Pdu) (user : Option UserId) : Prop :=
  user.isSome = true → ∀ pl ∈ powerLevels, Succeeds (deserializePowerLevelsContentInvite pl.content v) ∧
    Succeeds (deserializePowerLevelsContentFields c pl.content v)

variable {c v}

theorem joinAuthIsValid_succeeds (creators : List UserId) {user : Option UserId} (membership : MembershipState) :
    Succeeds (joinAuthIsValid c v creators create powerLevels user membership) ↔
      AuthoriserDecodes c v powerLevels user ∧
        (user.isSome = true → KnowsCreator c v create powerLevels.isSome) := by
  cases user with
  | none => simp [joinAuthIsValid, AuthoriserDecodes, Succeeds]
  | some user =>
    rw [← isCreator_succeeds creators user]
    cases powerLevels with
    | none =>
      simp only [joinAuthIsValid, AuthoriserDecodes, Succeeds, bind_eq_ok, Except.ok.injEq,
        Prod.exists, Prod.mk.injEq]
      constructor
      · rintro ⟨b, l, i, -, creator, hcreator, -⟩
        exact ⟨by simp, fun _ => ⟨creator, hcreator⟩⟩
      · rintro ⟨-, hcreator⟩
        obtain ⟨creator, hcreator⟩ := hcreator rfl
        exact ⟨_, 0, 0, ⟨rfl, rfl⟩, creator, hcreator, rfl⟩
    | some pl =>
      simp only [joinAuthIsValid, AuthoriserDecodes, Succeeds, bind_eq_ok, liftDe_eq_ok,
        Except.ok.injEq, Prod.exists,
        Prod.mk.injEq, Option.mem_some_iff, forall_eq']
      constructor
      · rintro ⟨b, i, hi, fields, hf, _, _, -, creator, hcreator, -⟩
        exact ⟨fun _ => ⟨⟨i, hi⟩, fields, hf⟩, fun _ => ⟨creator, hcreator⟩⟩
      · rintro ⟨hdecodes, hcreator⟩
        obtain ⟨⟨i, hi⟩, fields, hf⟩ := hdecodes rfl
        obtain ⟨creator, hcreator⟩ := hcreator rfl
        exact ⟨_, i, hi, fields, hf, _, _, ⟨rfl, rfl⟩, creator, hcreator, rfl⟩

theorem joinAuthIsValid_panics {creators : List UserId} {user : Option UserId} {membership : MembershipState} :
    Panics (joinAuthIsValid c v creators create powerLevels user membership) ↔
      user.isSome = true ∧ ¬ KnowsCreator c v create powerLevels.isSome := by
  cases user with
  | none => simp [joinAuthIsValid]
  | some user =>
    rw [← isCreator_panics creators user]
    cases powerLevels with
    | none =>
      simp only [joinAuthIsValid, panics_bind, panics_ok, and_false, exists_false, or_false, false_or,
        Option.isSome_some, true_and, Except.ok.injEq, exists_eq_left', Option.isSome_none]
    | some pl =>
      have hknows : ¬ Panics (isCreator c v creators create user true) := fun h =>
        (isCreator_panics creators user).mp h (Or.inr (Or.inr (Or.inl rfl)))
      simp [joinAuthIsValid, panics_bind, hknows]

theorem membershipPowerLevels_panics : ¬ Panics (membershipPowerLevels c powerLevels) := by
  rintro ⟨why, h⟩
  unfold membershipPowerLevels at h
  cases powerLevels with
  | none => cases h
  | some pl =>
    simp only at h
    split at h <;> cases h

variable (c v) in
/-- All that a membership change reads besides the join rules decodes. -/
structure MembershipDecodes : Prop where
  content : Succeeds (RoomCreateContentFields.parse create.content)
  requested : Succeeds (membershipOf c event.content)
  sender : Succeeds (membershipOrLeave c senderMember)
  target : Succeeds (membershipOrLeave c targetMember)
  levels : Succeeds (membershipPowerLevels c powerLevels)
  authoriser : AuthoriserDecodes c v powerLevels userForJoinAuth
  creator : KnowsCreator c v create powerLevels.isSome

theorem validMembershipChange_succeeds :
    Succeeds (validMembershipChange c v target targetMember sender senderMember event
      currentThirdPartyInvite powerLevels
        joinRules userForJoinAuth userForJoinAuthMembership create) ↔
      MembershipDecodes c v targetMember senderMember powerLevels create event userForJoinAuth ∧
        Succeeds (joinRuleOf c joinRules) := by
  constructor
  · rintro ⟨b, h⟩
    obtain ⟨cc, asked, facts, hread, hasked, hr, hvalid, -⟩ := (validMembershipChange_eq_ok ..).mp h
    exact ⟨⟨⟨_, hread.content⟩, ⟨_, hasked⟩, ⟨_, hread.senderMembership⟩,
      ⟨_, hread.targetMembership⟩, ⟨_, hread.levels⟩,
      ((joinAuthIsValid_succeeds ..).mp ⟨_, hvalid⟩).1, (isCreator_succeeds ..).mp ⟨_, hread.senderCreator⟩⟩, _, hr⟩
  · rintro ⟨⟨⟨cc, hcc⟩, ⟨asked, hasked⟩, ⟨sm, hsm⟩, ⟨tm, htm⟩, ⟨levels, hl⟩, hauth, hknows⟩, rule, hr⟩
    obtain ⟨valid, hvalid⟩ := (joinAuthIsValid_succeeds powerLevels create (creatorsOf c v create cc)
      userForJoinAuthMembership).mpr ⟨hauth, fun _ => hknows⟩
    obtain ⟨sc, hsc⟩ := (isCreator_succeeds (creatorsOf c v create cc) sender).mpr hknows
    obtain ⟨tc, htc⟩ := (isCreator_succeeds (creatorsOf c v create cc) target).mpr hknows
    have hread : MembershipRead c v target targetMember sender senderMember powerLevels create cc
        ⟨sender, target, sm, tm, memberPower v (creatorsOf c v create cc) levels sender,
          memberPower v (creatorsOf c v create cc) levels target, sc, tc, rule, levels, valid⟩ :=
      ⟨hcc, rfl, rfl, hsm, htm, hl, rfl, rfl, hsc, htc⟩
    exact ⟨_, (validMembershipChange_eq_ok ..).mpr ⟨cc, asked, _, hread, hasked, hr, hvalid, rfl⟩⟩

theorem validMembershipChange_panics :
    Panics (validMembershipChange c v target targetMember sender senderMember event
      currentThirdPartyInvite powerLevels
        joinRules userForJoinAuth userForJoinAuthMembership create) ↔
      Succeeds (RoomCreateContentFields.parse create.content) ∧ Succeeds (membershipOf c event.content) ∧
        Succeeds (membershipOrLeave c senderMember) ∧ Succeeds (membershipOrLeave c targetMember) ∧
        Succeeds (joinRuleOf c joinRules) ∧ ¬ KnowsCreator c v create powerLevels.isSome := by
  rw [validMembershipChange_eq]
  simp only [panics_bind, panics_liftDe, false_or, membershipPowerLevels_panics, joinAuthIsValid_panics,
    isCreator_panics, panics_ok, and_false, exists_false, or_false, liftDe_eq_ok]
  constructor
  · rintro ⟨cc, hcc, asked, hasked, sm, hsm, tm, htm, levels, -, rule, hr, h⟩
    refine ⟨⟨cc, hcc⟩, ⟨asked, hasked⟩, ⟨sm, hsm⟩, ⟨tm, htm⟩, ⟨rule, hr⟩, ?_⟩
    rcases h with ⟨-, hk⟩ | ⟨_, -, hk | ⟨_, -, hk⟩⟩ <;> exact hk
  · rintro ⟨⟨cc, hcc⟩, ⟨asked, hasked⟩, ⟨sm, hsm⟩, ⟨tm, htm⟩, ⟨rule, hr⟩, hk⟩
    obtain rfl : powerLevels = none := by
      cases powerLevels with
      | none => rfl
      | some pl => exact absurd (Or.inr (Or.inr (Or.inl rfl))) hk
    refine ⟨cc, hcc, asked, hasked, sm, hsm, tm, htm, _, rfl, rule, hr, ?_⟩
    cases userForJoinAuth with
    | none => exact Or.inr ⟨false, rfl, Or.inl hk⟩
    | some user => exact Or.inl ⟨rfl, hk⟩

end

/-! ## Member events -/

section
variable (c : Codec) (ev : Pdu)

def Requests (m : MembershipState) : Prop := (ev.content.optional "membership").map c.membershipState = some (.ok m)

def authoriserOf : Option UserId :=
  (ev.content.optional "join_authorised_via_users_server").bind fun u => (c.userId u).toOption

def authoriserMembership (fetchState : EventType → StateKey → Option Pdu) : MembershipState :=
  (((authoriserOf c ev).bind fun u => fetchState .roomMember u).bind
    fun m => (membershipOf c m.content).toOption).getD .leave

variable {c ev}

theorem Requests.isObject {m : MembershipState} (h : Requests c ev m) : ev.content.asObject.isSome = true := by
  unfold Requests Value.optional Value.get at h
  cases ho : ev.content.asObject with
  | none => simp [ho] at h
  | some o => rfl

theorem Requests.membershipOf {m : MembershipState} (h : Requests c ev m) : membershipOf c ev.content = .ok m := by
  obtain ⟨w, hw, hm⟩ := Option.map_eq_some_iff.mp h
  have hget : ev.content.get "membership" = some w := (Option.filter_eq_some_iff.mp hw).1
  simp only [Congruent.membershipOf, Value.object, h.isObject, if_true, Value.required, bind, Except.bind, hget, hm]

theorem memberCheck_noObject {v : RoomVersion} {tpi : Option Pdu} {fetchState : EventType → StateKey → Option Pdu}
    {create : Pdu} (hkey : ev.stateKey.isSome = true) (hobject : ev.content.asObject = none) :
    memberCheck c v ev tpi fetchState create = .error (.codec (.expected "object")) := by
  obtain ⟨k, hk⟩ := Option.isSome_iff_exists.mp hkey
  simp [memberCheck, RoomMemberContentFields.parse, Value.object, hk, hobject, liftDe, bind, Except.bind]

variable (c ev) in
/-- A member event that names no user or no membership has one answer in every state;
any other asks for a membership change. -/
theorem memberCheck_cases (v : RoomVersion) (tpi : Option Pdu) (create : Pdu) :
    ((∀ k target m, ev.stateKey = some k → c.parseUserId k = some target → ¬ Requests c ev m) ∧
      ∃ r, r ≠ .ok true ∧ ¬ Panics r ∧ ∀ fetchState, memberCheck c v ev tpi fetchState create = r) ∨
    ∃ k target m, ev.stateKey = some k ∧ c.parseUserId k = some target ∧ Requests c ev m ∧
      ∀ fetchState, memberCheck c v ev tpi fetchState create =
        validMembershipChange c v target (fetchState .roomMember target) ev.sender
          (fetchState .roomMember ev.sender) ev
          tpi (fetchState .roomPowerLevels "") (fetchState .roomJoinRules "") (authoriserOf c ev)
          (authoriserMembership c ev fetchState) create := by
  cases hk : ev.stateKey with
  | none =>
    refine Or.inl ⟨fun k target m hk' => ?_, .ok false, by simp, by simp, fun _ => ?_⟩
    · cases hk'
    · rw [memberCheck, hk]
  | some k =>
    cases ho : ev.content.asObject with
    | none =>
      refine Or.inl ⟨fun _ _ m _ _ hm => ?_, _, ?_, ?_, fun _ => memberCheck_noObject (by rw [hk]; rfl) ho⟩
      · have hobject := hm.isObject
        rw [ho] at hobject
        cases hobject
      · intro h
        cases h
      · rintro ⟨why, h⟩
        cases h
    | some o =>
      unfold memberCheck RoomMemberContentFields.parse Value.object
      simp only [hk, ho, Option.isSome_some, if_true, liftDe, bind, Except.bind]
      cases hm : (ev.content.optional "membership").bind fun m => (c.membershipState m).toOption with
      | none =>
        refine Or.inl ⟨fun _ _ m _ _ hreq => ?_, .ok false, by simp, by simp, fun _ => rfl⟩
        obtain ⟨w, hw, hd⟩ := Option.map_eq_some_iff.mp hreq
        simp [hw, hd, Except.toOption] at hm
      | some m =>
        cases hp : c.parseUserId k with
        | none =>
          refine Or.inl ⟨fun k' target m hk' hp' => ?_, .ok false, by simp, by simp, fun _ => rfl⟩
          rw [← Option.some.inj hk', hp] at hp'
          cases hp'
        | some target =>
          obtain ⟨w, hw, hd⟩ := Option.bind_eq_some_iff.mp hm
          refine Or.inr ⟨k, target, m, rfl, hp, ?_, fun _ => rfl⟩
          rw [Requests, hw, Option.map_some, toOption_eq_some.mp hd]

theorem authCheck_member (hkind : ev.kind = .roomMember) (v : RoomVersion) (tpi : Option Pdu)
    (fetchState : EventType → StateKey → Option Pdu) (create : Pdu) :
    authCheck c v ev tpi fetchState create = (do
      let createContent ← liftDe (RoomCreateContentFields.parse create.content)
      if roomRejects c v ev (fetchState .roomPowerLevels "") create createContent then .ok false
      else memberCheck c v ev tpi fetchState create) := by
  simp only [authCheck, hkind, reduceCtorEq, if_false, decide_false, Bool.and_false, Bool.false_eq_true, if_true]

end

end Congruent
