import Congruent.MembershipReads

/-!
# The table of membership changes

What an accepted member event says about the state it was checked against: who may
move whom from which membership to which, under which join rule and with which level.
The creators of a room have rows of their own.
-/

namespace Congruent

namespace MembershipFacts

/-- A creator acts on somebody who is none. -/
def CreatorOver (f : MembershipFacts) : Prop := f.senderCreator = true ∧ f.targetCreator = false

/-- A leave of another user: nothing more is asked for one who is out already. -/
def MayRemove (f : MembershipFacts) : Prop :=
  f.targetMembership = .leave ∨ f.CreatorOver ∨
    if f.targetMembership = .ban then f.levels.ban ≤ f.senderPower
    else f.levels.kick ≤ f.senderPower ∧ f.targetPower < f.senderPower

def KnocksAdmitted (v : RoomVersion) (f : MembershipFacts) : Prop :=
  f.joinRules = .knock ∨ f.joinRules = .knockRestricted ∧ v.knockRestrictedJoinRule = true

variable {f : MembershipFacts}

theorem allowJoin_sound {v : RoomVersion} {prev : List EventId} {createId : EventId}
    (h : f.allowJoin v prev createId = true) :
    (prev = [createId] ∧ f.senderCreator = true ∧ f.targetCreator = true) ∨
      f.sender = f.target ∧ f.targetMembership ≠ .ban ∧
        (f.targetMembership = .join ∨ f.joinRulesAllow v = true) := by
  unfold allowJoin at h
  split at h
  · rename_i hfirst
    simp only [Bool.and_eq_true, decide_eq_true_eq, and_assoc] at hfirst
    exact Or.inl hfirst
  split at h
  · cases h
  rename_i hown
  split at h
  · cases h
  rename_i hban
  refine Or.inr ⟨of_not_not hown, hban, ?_⟩
  split at h
  · rename_i hjoin
    exact Or.inl hjoin
  · exact Or.inr h

theorem joinRulesAllow_restricted {v : RoomVersion} (h : f.joinRulesAllow v = true)
    (hrule : f.joinRules = .restricted ∨ f.joinRules = .knockRestricted) :
    f.targetMembership = .join ∨ f.targetMembership = .invite ∨ f.joinAuthIsValid = true := by
  unfold joinRulesAllow at h
  rcases hrule with hrule | hrule
  all_goals
    rw [hrule] at h
    simp only [Bool.and_eq_true, Bool.or_eq_true, decide_eq_true_eq, or_assoc] at h
  · exact h
  · exact h.2

theorem allowLeave_sound (h : f.allowLeave = true) (hother : f.sender ≠ f.target) :
    f.senderMembership = .join ∧ f.MayRemove := by
  unfold allowLeave at h
  rw [if_neg hother] at h
  split at h
  · cases h
  rename_i hjoined
  rw [Bool.and_eq_true] at h
  obtain ⟨hunban, hkick⟩ := h
  refine ⟨of_not_not hjoined, ?_⟩
  unfold MayRemove CreatorOver
  by_cases hban : f.targetMembership = .ban
  · right
    simpa [canUnban, hban] using hunban
  by_cases hleave : f.targetMembership = .leave
  · exact Or.inl hleave
  right
  unfold canKick at hkick
  rw [if_pos (by simp [hban, hleave])] at hkick
  split at hkick
  · rename_i hover
    left
    simpa using hover
  · split at hkick
    · cases hkick
    · rename_i hlevel
      right
      rw [if_neg hban]
      exact ⟨not_lt.mp hlevel, by simpa using hkick⟩

theorem allowBan_sound (h : f.allowBan = true) :
    f.senderMembership = .join ∧ (f.CreatorOver ∨ f.levels.ban ≤ f.senderPower ∧ f.targetPower <
      f.senderPower) := by
  unfold allowBan at h
  split at h
  · cases h
  rename_i hjoined
  exact ⟨of_not_not hjoined, by simpa [CreatorOver] using h⟩

theorem allowKnock_sound {v : RoomVersion} (h : f.allowKnock v = true) :
    f.KnocksAdmitted v ∧ f.sender = f.target ∧ f.senderMembership ≠ .ban := by
  unfold allowKnock at h
  split at h
  · cases h
  rename_i hrule
  split at h
  · cases h
  rename_i hversion
  split at h
  · cases h
  rename_i hown
  refine ⟨?_, of_not_not hown, fun hban => by simp [hban] at h⟩
  unfold KnocksAdmitted
  by_cases hk : f.joinRules = .knock
  · exact Or.inl hk
  · have hrestricted : f.joinRules = .knockRestricted := by simpa [hk] using hrule
    exact Or.inr ⟨hrestricted, by simpa [hrestricted] using hversion⟩

theorem allowInvite_sound {c : Codec} {tp : Option ThirdPartyInvite} {current : Option Pdu}
    (h : f.allowInvite c tp current = true) :
    (∃ invite, tp = some invite ∧ f.targetMembership ≠ .ban ∧
      verifyThirdPartyInvite c (some f.target) f.sender invite current = true) ∨
    f.senderMembership = .join ∧ f.targetMembership ≠ .join ∧ f.targetMembership ≠ .ban ∧
      (f.senderCreator = true ∨ f.levels.invite ≤ f.senderPower) := by
  unfold allowInvite at h
  cases tp with
  | some invite =>
    simp only at h
    split at h
    · cases h
    · rename_i hban
      exact Or.inl ⟨invite, rfl, hban, h⟩
  | none =>
    simp only at h
    split at h
    · cases h
    rename_i hjoined
    split at h
    · cases h
    rename_i htarget
    simp only [Bool.or_eq_true, decide_eq_true_eq, not_or] at htarget
    exact Or.inr ⟨of_not_not hjoined, htarget.1, htarget.2, by simpa using h⟩

end MembershipFacts

/-! ## The authoriser of a restricted join -/

section
variable (c : Codec) (v : RoomVersion) (ev create : Pdu) (f : EventType → StateKey → Option Pdu)

/-- The named user is joined, and a creator or, where there are power levels, of the
level that invites need. -/
def AuthoriserMayInvite (createContent : RoomCreateContentFields) : Prop :=
  ∃ user member, authoriserOf c ev = some user ∧ f .roomMember user = some member ∧
    membershipOf c member.content = .ok .join ∧
    (isCreator c v (creatorsOf c v create createContent) create user (f .roomPowerLevels "").isSome = .ok true ∨
      ∀ pl, f .roomPowerLevels "" = some pl → ∃ invite fields,
        deserializePowerLevelsContentInvite pl.content v = .ok invite ∧
        deserializePowerLevelsContentFields c pl.content v = .ok fields ∧
        invite ≤ (fields.getUserPower user).getD fields.usersDefault)

variable {c v ev create f}

theorem authoriserMembership_join (h : authoriserMembership c ev f = .join) :
    ∃ user member, authoriserOf c ev = some user ∧ f .roomMember user = some member ∧
      membershipOf c member.content = .ok .join := by
  unfold authoriserMembership at h
  cases hread : ((authoriserOf c ev).bind fun u => f .roomMember u).bind
      fun m => (membershipOf c m.content).toOption with
  | none =>
    rw [hread] at h
    cases h
  | some m =>
    rw [hread] at h
    obtain rfl : m = .join := h
    obtain ⟨member, hmember, hm⟩ := Option.bind_eq_some_iff.mp hread
    obtain ⟨user, huser, hmember⟩ := Option.bind_eq_some_iff.mp hmember
    exact ⟨user, member, huser, hmember, toOption_eq_some.mp hm⟩

theorem joinAuthIsValid_sound {cc : RoomCreateContentFields}
    (h : joinAuthIsValid c v (creatorsOf c v create cc) create (f .roomPowerLevels "") (authoriserOf c ev)
      (authoriserMembership c ev f) = .ok true) : AuthoriserMayInvite c v ev create f cc := by
  unfold joinAuthIsValid at h
  cases huser : authoriserOf c ev with
  | none =>
    rw [huser] at h
    cases h
  | some user =>
    rw [huser] at h
    cases hpl : f .roomPowerLevels "" with
    | none =>
      rw [hpl] at h
      obtain ⟨_, -, h⟩ := bind_eq_ok.mp h
      obtain ⟨creator, -, h⟩ := bind_eq_ok.mp h
      simp only [Except.ok.injEq, Bool.and_eq_true, decide_eq_true_eq] at h
      obtain ⟨user', member, huser', hmember, hm⟩ := authoriserMembership_join h.1
      obtain rfl : user = user' := Option.some.inj (huser.symm.trans huser')
      refine ⟨user, member, huser, hmember, hm, Or.inr fun pl hsome => ?_⟩
      cases hpl.symm.trans hsome
    | some pl =>
      rw [hpl] at h
      simp only [bind_eq_ok, liftDe_eq_ok, Except.ok.injEq, Prod.exists, Prod.mk.injEq,
        Bool.and_eq_true, Bool.or_eq_true,
        decide_eq_true_eq] at h
      obtain ⟨invite, hinvite, fields, hfields, _, _, ⟨rfl, rfl⟩, creator, hcreator, hjoined, hpower⟩ := h
      obtain ⟨user', member, huser', hmember, hm⟩ := authoriserMembership_join hjoined
      obtain rfl : user = user' := Option.some.inj (huser.symm.trans huser')
      refine ⟨user, member, huser, hmember, hm, hpower.imp (fun hc => ?_) fun hlevel pl' hsome => ?_⟩
      · rw [hpl, ← hc]
        exact hcreator
      · obtain rfl : pl = pl' := Option.some.inj (hpl.symm.trans hsome)
        exact ⟨invite, fields, hinvite, hfields, hlevel⟩

end

/-! ## Accepted member events -/

section
variable (c : Codec) (v : RoomVersion) (ev create : Pdu) (tpi : Option Pdu) (f : EventType → StateKey → Option Pdu)

def FirstJoin (facts : MembershipFacts) : Prop :=
  ev.prevEvents = [create.eventId] ∧ facts.senderCreator = true ∧ facts.targetCreator = true

/-- The table, a row for each requested membership. -/
structure SoundTransition (target : UserId) (m : MembershipState) (createContent : RoomCreateContentFields)
    (facts : MembershipFacts) : Prop where
  join : m = .join → FirstJoin ev create facts ∨ ev.sender = target ∧ facts.targetMembership ≠ .ban
  restricted : m = .join → facts.joinRules = .restricted ∨ facts.joinRules = .knockRestricted →
    FirstJoin ev create facts ∨ facts.targetMembership = .join ∨ facts.targetMembership = .invite ∨
      AuthoriserMayInvite c v ev create f createContent
  invite : m = .invite →
    (∃ tp, requestedThirdPartyInvite c ev = some tp ∧ facts.targetMembership ≠ .ban ∧
      verifyThirdPartyInvite c (some target) ev.sender tp tpi = true) ∨
    facts.senderMembership = .join ∧ facts.targetMembership ≠ .join ∧ facts.targetMembership ≠ .ban ∧
      (facts.senderCreator = true ∨ facts.levels.invite ≤ facts.senderPower)
  leave : m = .leave → ev.sender ≠ target → facts.senderMembership = .join ∧ facts.MayRemove
  ban : m = .ban → facts.senderMembership = .join ∧
    (facts.CreatorOver ∨ facts.levels.ban ≤ facts.senderPower ∧ facts.targetPower < facts.senderPower)
  knock : m = .knock → ev.sender = target ∧ facts.targetMembership ≠ .ban ∧ v.allowKnocking = true ∧
    facts.KnocksAdmitted v

end

section
variable {c : Codec} {v : RoomVersion} {ev create : Pdu} {tpi : Option Pdu} {f : EventType → StateKey → Option Pdu}

theorem membershipVerdict_sound {target : UserId} {m : MembershipState} {cc : RoomCreateContentFields}
    {facts : MembershipFacts}
    (hread : MembershipRead c v target (f .roomMember target) ev.sender (f .roomMember ev.sender)
      (f .roomPowerLevels "") create cc facts)
    (hvalid : joinAuthIsValid c v (creatorsOf c v create cc) create (f .roomPowerLevels "") (authoriserOf c ev)
      (authoriserMembership c ev f) = .ok facts.joinAuthIsValid)
    (h : membershipVerdict c v ev tpi create m facts = true) : SoundTransition c v ev create tpi f
      target m cc facts := by
  have hs := hread.isSender
  have ht := hread.isTarget
  constructor
  · rintro rfl
    rcases MembershipFacts.allowJoin_sound h with hfirst | ⟨hown, hban, -⟩
    · exact Or.inl hfirst
    · exact Or.inr ⟨hs ▸ ht ▸ hown, hban⟩
  · rintro rfl hrule
    rcases MembershipFacts.allowJoin_sound h with hfirst | ⟨-, -, hjoin | hallow⟩
    · exact Or.inl hfirst
    · exact Or.inr (Or.inl hjoin)
    · refine Or.inr ((MembershipFacts.joinRulesAllow_restricted hallow hrule).imp_right fun h =>
        h.imp_right fun h => ?_)
      exact joinAuthIsValid_sound (h ▸ hvalid)
  · rintro rfl
    rw [← hs, ← ht]
    exact MembershipFacts.allowInvite_sound h
  · rintro rfl hother
    exact MembershipFacts.allowLeave_sound h (by rwa [hs, ht])
  · rintro rfl
    exact MembershipFacts.allowBan_sound h
  · rintro rfl
    obtain ⟨hversion, h⟩ := Bool.and_eq_true_iff.mp h
    obtain ⟨hrule, hown, hban⟩ := MembershipFacts.allowKnock_sound h
    have hown : ev.sender = target := hs ▸ ht ▸ hown
    have hsame : facts.targetMembership = facts.senderMembership := by
      have htm := hread.targetMembership
      rw [← hown] at htm
      exact Except.ok.inj (htm.symm.trans hread.senderMembership)
    exact ⟨hown, hsame ▸ hban, hversion, hrule⟩

/-- What is read of the state for an accepted member event stands in the table. -/
theorem member_accepted_sound (hkind : ev.kind = .roomMember) (h : authCheck c v ev tpi f create = .ok true) :
    ∃ k target m cc facts, ev.stateKey = some k ∧ c.parseUserId k = some target ∧ Requests c ev m ∧
      MembershipRead c v target (f .roomMember target) ev.sender (f .roomMember ev.sender) (f .roomPowerLevels "")
        create cc facts ∧
      joinRuleOf c (f .roomJoinRules "") = .ok facts.joinRules ∧
      SoundTransition c v ev create tpi f target m cc facts := by
  rw [authCheck_member hkind] at h
  obtain ⟨content, -, h⟩ := bind_eq_ok.mp h
  split at h
  · cases h
  rcases memberCheck_cases c ev v tpi create with ⟨-, r, hr, -, hcheck⟩ | ⟨k, target, m, hk, htarget, hm, hcheck⟩
  · rw [hcheck] at h
    exact absurd h hr
  · rw [hcheck] at h
    obtain ⟨cc, asked, facts, hread, hasked, hrule, hvalid, hverdict⟩ := (validMembershipChange_eq_ok ..).mp h
    obtain rfl : m = asked := Except.ok.inj (hm.membershipOf.symm.trans hasked)
    exact ⟨k, target, m, cc, facts, hk, htarget, hm, hread, hrule, membershipVerdict_sound hread hvalid hverdict⟩

end

/-! ## Changes that are accepted -/

def stateOf (events : List Pdu) (kind : EventType) (key : StateKey) : Option Pdu :=
  events.find? fun ev => ev.kind = kind && ev.stateKey = some key

def memberEvent (sender target : UserId) (membership : String) (auth prev : List EventId) : Pdu :=
  { stateEvent "$change" sender .roomMember target [("membership", .str membership)] auth with prevEvents := prev }

def nowMember (user : UserId) (membership : String) : Pdu := memberEvent user user membership ["$create"] []

def unevenLevels : Pdu :=
  stateEvent "$pl" "@alice:a" .roomPowerLevels ""
    [("kick", .num 60), ("invite", .num 50), ("users", .obj [("@bob:a", .num 50), ("@carol:a", .num 100)])]
    ["$create"]

def twoCreators : Pdu :=
  stateEvent "$create" "@alice:a" .roomCreate "" [("additional_creators", .arr [.str "@bob:a"])] []

def restrictedRules : Pdu := stateEvent "$rules" "@alice:a" .roomJoinRules "" [("join_rule", .str "restricted")] []

def eveJoins : Pdu :=
  stateEvent "$eve" "@eve:a" .roomMember "@eve:a"
    [("membership", .str "join"), ("join_authorised_via_users_server", .str "@alice:a")] []

/-- @carol:a bans @eve:a. -/
theorem member_accepted_sound_ban : ∃ k target m cc facts, k = "@eve:a" ∧
    SoundTransition .plain .V10 (memberEvent "@carol:a" "@eve:a" "ban" ["$create"] []) roomCreated none
      (stateOf [nowMember "@carol:a" "join", unevenLevels]) target m cc facts := by
  have haccepted : authCheck .plain .V10 (memberEvent "@carol:a" "@eve:a" "ban" ["$create"] []) none
      (stateOf [nowMember "@carol:a" "join", unevenLevels]) roomCreated = .ok true := by decide
  obtain ⟨k, target, m, cc, facts, hk, -, -, -, -, hsound⟩ := member_accepted_sound rfl haccepted
  exact ⟨k, target, m, cc, facts, (Option.some.inj hk).symm, hsound⟩

/-- Accepted: @bob:a with a lower level unbans @carol:a, and @dave:a without any level
repeats her leave; a creator joins the other one, who is banned; the creator of a room
without power levels bans; a creator without the level for invites authorises a join. -/
theorem membership_exceptions :
    (∃ levels, membershipPowerLevels .plain (some unevenLevels) = .ok levels ∧
      memberPower .V10 ["@alice:a"] levels "@dave:a" < levels.kick ∧
      memberPower .V10 ["@alice:a"] levels "@bob:a" < levels.kick ∧
      memberPower .V10 ["@alice:a"] levels "@bob:a" < memberPower .V10 ["@alice:a"] levels "@carol:a") ∧
    authCheck .plain .V10 (memberEvent "@bob:a" "@carol:a" "leave" ["$create"] []) none
      (stateOf [nowMember "@bob:a" "join", nowMember "@carol:a" "ban", unevenLevels]) roomCreated = .ok true ∧
    authCheck .plain .V10 (memberEvent "@dave:a" "@carol:a" "leave" ["$create"] []) none
      (stateOf [nowMember "@dave:a" "join", nowMember "@carol:a" "leave", unevenLevels]) roomCreated = .ok true ∧
    authCheck .plain .V12 (memberEvent "@alice:a" "@bob:a" "join" [] ["$create"]) none
      (stateOf [nowMember "@bob:a" "ban"]) twoCreators = .ok true ∧
    ((∃ levels, membershipPowerLevels .plain none = .ok levels ∧
        memberPower .V10 ["@alice:a"] levels "@alice:a" < levels.ban) ∧
      authCheck .plain .V10 (memberEvent "@alice:a" "@bob:a" "ban" ["$create"] []) none
        (stateOf [nowMember "@alice:a" "join"]) roomCreated = .ok true) ∧
    (∃ invite fields, deserializePowerLevelsContentInvite unevenLevels.content .V12 = .ok invite ∧
      deserializePowerLevelsContentFields .plain unevenLevels.content .V12 = .ok fields ∧
      (fields.getUserPower "@alice:a").getD fields.usersDefault < invite) ∧
    authCheck .plain .V12 eveJoins none (stateOf [nowMember "@alice:a" "join", restrictedRules, unevenLevels])
      twoCreators = .ok true := by
  refine ⟨⟨_, rfl, ?_, ?_, ?_⟩, ?_, ?_, ?_, ⟨⟨_, rfl, ?_⟩, ?_⟩, ⟨_, _, rfl, rfl, ?_⟩, ?_⟩ <;> decide

end Congruent
