import Congruent.MembershipReads

/-!
# The state a check depends on

Two lookups that agree on the keys that `auth_types_for_event` selects. The check of an
event reads no more, with two exceptions: the join rules are decoded for every member
event, and are selected for joins, invites and knocks only; and the power levels are
compared with the room before a content is found to be no object, for which nothing
is selected.
-/

namespace Congruent

section
variable (c : Codec) (v : RoomVersion) (ev : Pdu)

def AgreeOnSelected (f g : EventType → StateKey → Option Pdu) : Prop :=
  ∀ keys, authTypesForEvent c ev.kind ev.sender ev.stateKey ev.content v = .ok keys →
    ∀ k ∈ keys, f k.1 k.2 = g k.1 k.2

def SelectsJoinRules (m : MembershipState) : Prop := m = .join ∨ m = .invite ∨ m = .knock

instance (m : MembershipState) : Decidable (SelectsJoinRules m) :=
  inferInstanceAs (Decidable (m = .join ∨ m = .invite ∨ m = .knock))

end

/-! ## The selected keys -/

theorem mem_pushKey (keys : List TypeStateKey) (key x : TypeStateKey) : x ∈ pushKey keys key ↔
    x ∈ keys ∨ x = key := by
  unfold pushKey
  split
  · rename_i h
    exact ⟨Or.inl, fun hx => hx.elim id fun hx => hx ▸ h⟩
  · rw [List.mem_append, List.mem_singleton]

section
variable {c : Codec} {v : RoomVersion} {ev : Pdu} {f g : EventType → StateKey → Option Pdu}

theorem authoriserOf_eq_some (u : UserId) :
    authoriserOf c ev = some u ↔
      (ev.content.optional "join_authorised_via_users_server").map c.userId = some (.ok u) := by
  simp only [authoriserOf, Option.bind_eq_some_iff, Option.map_eq_some_iff, toOption_eq_some]

theorem mem_invited {keys : List TypeStateKey} {m : MembershipState} {x : TypeStateKey} (hx : x ∈ keys) :
    x ∈ (if m = .invite then
      match (ev.content.optional "third_party_invite").map c.thirdPartyInvite with
      | some (.ok tp) => pushKey keys (.roomThirdPartyInvite, tp.signed.token)
      | _ => keys
    else keys) := by
  split
  · split
    · exact (mem_pushKey ..).mpr (Or.inl hx)
    · exact hx
  · exact hx

theorem memberAuthTypes_mem {keys : List TypeStateKey} {k : StateKey} {m : MembershipState} {x : TypeStateKey}
    (h : x ∈ keys ∨ x = (.roomMember, k) ∨
      SelectsJoinRules m ∧ (x = (.roomJoinRules, "") ∨ ∃ u, authoriserOf c ev = some u ∧ x = (.roomMember, u))) :
    x ∈ memberAuthTypes c keys k ev.content m := by
  unfold memberAuthTypes
  refine mem_invited ((mem_pushKey ..).mpr ?_)
  rcases h with h | h | ⟨hm, h⟩
  · left
    split
    · split
      · exact (mem_pushKey ..).mpr (Or.inl ((mem_pushKey ..).mpr (Or.inl h)))
      · exact (mem_pushKey ..).mpr (Or.inl h)
    · exact h
  · exact Or.inr h
  · left
    unfold SelectsJoinRules at hm
    rw [if_pos hm]
    rcases h with h | ⟨u, hu, h⟩
    · split
      · exact (mem_pushKey ..).mpr (Or.inl ((mem_pushKey ..).mpr (Or.inr h)))
      · exact (mem_pushKey ..).mpr (Or.inr h)
    · rw [(authoriserOf_eq_some u).mp hu]
      exact (mem_pushKey ..).mpr (Or.inr h)

/-- What is selected for every event that is no create event. -/
def baseKeys (v : RoomVersion) (sender : UserId) : List TypeStateKey :=
  if v.roomIdsAsHashes then [(.roomPowerLevels, ""), (.roomMember, sender)]
  else [(.roomPowerLevels, ""), (.roomMember, sender), (.roomCreate, "")]

theorem mem_baseKeys (v : RoomVersion) (sender : UserId) :
    (.roomPowerLevels, "") ∈ baseKeys v sender ∧ (.roomMember, sender) ∈ baseKeys v sender := by
  unfold baseKeys
  split <;> simp

theorem authTypes_member (hkind : ev.kind = .roomMember) {k : StateKey} (hk : ev.stateKey = some k) :
    authTypesForEvent c ev.kind ev.sender ev.stateKey ev.content v =
      if ev.content.asObject.isNone then .error (.expected "object")
      else match (ev.content.optional "membership").map c.membershipState with
        | some (.ok m) => .ok (memberAuthTypes c (baseKeys v ev.sender) k ev.content m)
        | _ => .ok (baseKeys v ev.sender) := by
  rw [hkind, hk]
  rfl

theorem authTypes_other (hcreate : ev.kind ≠ .roomCreate) (h : ev.kind ≠ .roomMember ∨ ev.stateKey = none) :
    authTypesForEvent c ev.kind ev.sender ev.stateKey ev.content v = .ok (baseKeys v ev.sender) := by
  unfold authTypesForEvent
  rw [if_neg hcreate]
  rcases h with h | h
  · cases hk : ev.kind with
    | roomMember => exact absurd hk h
    | _ => rfl
  · rw [h]
    cases ev.kind <;> rfl

theorem AgreeOnSelected.base (h : AgreeOnSelected c v ev f g) (hcreate : ev.kind ≠ .roomCreate)
    (hobject : ev.kind = .roomMember → ev.stateKey.isSome = true → ev.content.asObject.isSome = true) :
    f .roomPowerLevels "" = g .roomPowerLevels "" ∧ f .roomMember ev.sender = g .roomMember ev.sender := by
  obtain ⟨hpl, hsender⟩ := mem_baseKeys v ev.sender
  have hkeys : ∃ keys, authTypesForEvent c ev.kind ev.sender ev.stateKey ev.content v = .ok keys ∧
      ∀ x ∈ baseKeys v ev.sender, x ∈ keys := by
    by_cases hm : ev.kind = .roomMember
    · cases hk : ev.stateKey with
      | none => exact ⟨_, hk ▸ authTypes_other hcreate (Or.inr hk), fun _ hx => hx⟩
      | some k =>
        have hobj := hobject hm (by rw [hk]; rfl)
        rw [← hk, authTypes_member hm hk, if_neg (by simpa using Option.isSome_iff_ne_none.mp hobj)]
        split
        · exact ⟨_, rfl, fun x hx => memberAuthTypes_mem (Or.inl hx)⟩
        · exact ⟨_, rfl, fun _ hx => hx⟩
    · exact ⟨_, authTypes_other hcreate (Or.inl hm), fun _ hx => hx⟩
  obtain ⟨keys, hkeys, hsub⟩ := hkeys
  exact ⟨h keys hkeys _ (hsub _ hpl), h keys hkeys _ (hsub _ hsender)⟩

theorem AgreeOnSelected.member (h : AgreeOnSelected c v ev f g) (hkind : ev.kind = .roomMember) {k : StateKey}
    (hk : ev.stateKey = some k) {m : MembershipState} (hm : Requests c ev m) :
    f .roomMember k = g .roomMember k ∧
      (SelectsJoinRules m → f .roomJoinRules "" = g .roomJoinRules "" ∧
        ∀ u, authoriserOf c ev = some u → f .roomMember u = g .roomMember u) := by
  have hsel : authTypesForEvent c ev.kind ev.sender ev.stateKey ev.content v =
      .ok (memberAuthTypes c (baseKeys v ev.sender) k ev.content m) := by
    have hobj := hm.isObject
    rw [authTypes_member hkind hk, if_neg (by simpa using Option.isSome_iff_ne_none.mp hobj), hm]
  have hagree := h _ hsel
  refine ⟨hagree _ (memberAuthTypes_mem (Or.inr (Or.inl rfl))), fun hj => ⟨?_, fun u hu => ?_⟩⟩
  · exact hagree _ (memberAuthTypes_mem (Or.inr (Or.inr ⟨hj, Or.inl rfl⟩)))
  · exact hagree _ (memberAuthTypes_mem (Or.inr (Or.inr ⟨hj, Or.inr ⟨u, hu, rfl⟩⟩)))

end

/-! ## A change that does not use the join rules -/

theorem MembershipRead.eq {c : Codec} {v : RoomVersion} {target sender : UserId}
    {targetMember senderMember powerLevels : Option Pdu} {create : Pdu} {cc cc' : RoomCreateContentFields}
    {facts facts' : MembershipFacts}
    (h : MembershipRead c v target targetMember sender senderMember powerLevels create cc facts)
    (h' : MembershipRead c v target targetMember sender senderMember powerLevels create cc' facts') :
    facts' = { facts with joinRules := facts'.joinRules, joinAuthIsValid := facts'.joinAuthIsValid } := by
  obtain rfl : cc = cc' := Except.ok.inj (h.content.symm.trans h'.content)
  have hlevels : facts.levels = facts'.levels := Except.ok.inj (h.levels.symm.trans h'.levels)
  have hsm := Except.ok.inj (h.senderMembership.symm.trans h'.senderMembership)
  have htm := Except.ok.inj (h.targetMembership.symm.trans h'.targetMembership)
  have hsc := Except.ok.inj (h.senderCreator.symm.trans h'.senderCreator)
  have htc := Except.ok.inj (h.targetCreator.symm.trans h'.targetCreator)
  have hs := h.isSender.trans h'.isSender.symm
  have ht := h.isTarget.trans h'.isTarget.symm
  have hsp : facts.senderPower = facts'.senderPower := by rw [h.senderPower, h'.senderPower, hlevels]
  have htp : facts.targetPower = facts'.targetPower := by rw [h.targetPower, h'.targetPower, hlevels]
  cases facts
  cases facts'
  simp only at hs ht hsm htm hlevels hsp htp hsc htc
  subst hs ht hsm htm hlevels hsp htp hsc htc
  rfl

section
variable {c : Codec} {v : RoomVersion} {target sender : UserId} {targetMember senderMember powerLevels : Option Pdu}
  {create ev : Pdu} {tpi rules rules' : Option Pdu} {user : Option UserId}
  {membership membership' : MembershipState}

theorem unselected_verdict {m : MembershipState} (hm : membershipOf c ev.content = .ok m)
    (hsel : ¬ SelectsJoinRules m)
    {b b' : Bool}
    (h : validMembershipChange c v target targetMember sender senderMember ev tpi powerLevels rules user membership
      create = .ok b)
    (h' : validMembershipChange c v target targetMember sender senderMember ev tpi powerLevels
      rules' user membership'
      create = .ok b') : b = b' := by
  obtain ⟨cc, asked, facts, hread, hasked, -, -, rfl⟩ := (validMembershipChange_eq_ok ..).mp h
  obtain ⟨cc', asked', facts', hread', hasked', -, -, rfl⟩ := (validMembershipChange_eq_ok ..).mp h'
  obtain rfl : m = asked := Except.ok.inj (hm.symm.trans hasked)
  obtain rfl : m = asked' := Except.ok.inj (hm.symm.trans hasked')
  rw [hread.eq hread']
  cases m with
  | leave | ban | custom => rfl
  | join | invite | knock => exact absurd (by simp [SelectsJoinRules]) hsel

theorem succeeds_iff {ε α : Type} {x : Except ε α} : Succeeds x ↔ x.toOption.isSome = true := by
  cases x <;> simp [Succeeds, Except.toOption]

/-- Two such changes over different join rules have the same result when, all else
being read, both or neither of the rules decode. -/
theorem unselected_result {m : MembershipState} (hm : membershipOf c ev.content = .ok m)
    (hsel : ¬ SelectsJoinRules m) :
    (validMembershipChange c v target targetMember sender senderMember ev tpi powerLevels rules user membership
        create).toOption =
      (validMembershipChange c v target targetMember sender senderMember ev tpi powerLevels rules' user membership'
        create).toOption ↔
    (MembershipDecodes c v targetMember senderMember powerLevels create ev user →
      (Succeeds (joinRuleOf c rules) ↔ Succeeds (joinRuleOf c rules'))) := by
  have hs := validMembershipChange_succeeds (c := c) (v := v) target targetMember sender senderMember powerLevels
    create ev tpi rules user membership
  have hs' := validMembershipChange_succeeds (c := c) (v := v) target targetMember sender senderMember powerLevels
    create ev tpi rules' user membership'
  constructor
  · intro heq hdecodes
    rw [succeeds_iff, heq, ← succeeds_iff, hs'] at hs
    simpa [hdecodes] using hs.symm
  · intro hiff
    rw [toOption_eq]
    intro b
    have hsame : ∀ {r r' m m'}, (MembershipDecodes c v targetMember senderMember powerLevels create ev user →
        (Succeeds (joinRuleOf c r) ↔ Succeeds (joinRuleOf c r'))) →
        validMembershipChange c v target targetMember sender senderMember ev tpi powerLevels r
          user m create = .ok b →
        validMembershipChange c v target targetMember sender senderMember ev tpi powerLevels r' user m' create =
          .ok b := by
      intro r r' m m' hiff hb
      obtain ⟨hdecodes, hrule⟩ := (validMembershipChange_succeeds ..).mp ⟨b, hb⟩
      obtain ⟨b', hb'⟩ := (validMembershipChange_succeeds (c := c) (v := v) target targetMember sender senderMember
        powerLevels create ev tpi r' user m').mpr ⟨hdecodes, (hiff hdecodes).mp hrule⟩
      rw [unselected_verdict hm hsel hb hb']
      exact hb'
    exact ⟨hsame hiff, hsame fun hd => (hiff hd).symm⟩

end

/-! ## The verdict -/

section
variable (c : Codec) (v : RoomVersion) (ev create : Pdu) (f : EventType → StateKey → Option Pdu)

def SelectsNothing : Prop := ev.kind = .roomMember ∧ ev.stateKey.isSome = true ∧ ev.content.asObject = none

/-- A leave, a ban or a membership that the rules do not know, in its room, and of which
everything decodes that is read besides the join rules. -/
structure ReadsUnselectedRules (target : UserId) (m : MembershipState) : Prop where
  kind : ev.kind = .roomMember
  key : ∃ k, ev.stateKey = some k ∧ c.parseUserId k = some target
  requested : Requests c ev m
  unselected : ¬ SelectsJoinRules m
  room : ∃ createContent, RoomCreateContentFields.parse create.content = .ok createContent ∧
    roomRejects c v ev (f .roomPowerLevels "") create createContent = false
  decodes : MembershipDecodes c v (f .roomMember target) (f .roomMember ev.sender) (f .roomPowerLevels "") create ev
    (authoriserOf c ev)

end

section
variable {c : Codec} {v : RoomVersion} {ev create : Pdu} {tpi : Option Pdu}
  {f g : EventType → StateKey → Option Pdu}

theorem authCheck_other (hcreate : ev.kind ≠ .roomCreate) (hmember : ev.kind ≠ .roomMember)
    (hpl : f .roomPowerLevels "" = g .roomPowerLevels "") (hs : f .roomMember ev.sender = g .roomMember ev.sender) :
    authCheck c v ev tpi f create = authCheck c v ev tpi g create := by
  simp only [authCheck, hcreate, hmember, if_false, hpl, hs]

theorem memberCheck_agree (hparse : ∀ k u, c.parseUserId k = some u → u = k) (hkind : ev.kind = .roomMember)
    (hagree : AgreeOnSelected c v ev f g) (hobject : ev.stateKey.isSome = true → ev.content.asObject.isSome = true)
    {cc : RoomCreateContentFields} (hcc : RoomCreateContentFields.parse create.content = .ok cc)
    (hroom : roomRejects c v ev (f .roomPowerLevels "") create cc = false) :
    (memberCheck c v ev tpi f create).toOption = (memberCheck c v ev tpi g create).toOption ↔
      ∀ target m, ReadsUnselectedRules c v ev create f target m →
        (Succeeds (joinRuleOf c (f .roomJoinRules "")) ↔ Succeeds (joinRuleOf c (g .roomJoinRules ""))) := by
  obtain ⟨hpl, hs⟩ := hagree.base (by rw [hkind]; exact EventType.noConfusion) fun _ => hobject
  rcases memberCheck_cases c ev v tpi create with ⟨hno, r, -, -, hcheck⟩ | ⟨k, target, m, hk, htarget, hm, hcheck⟩
  · rw [hcheck, hcheck]
    refine ⟨fun _ target m hr => ?_, fun _ => rfl⟩
    obtain ⟨k, hk, hp⟩ := hr.key
    exact absurd hr.requested (hno k target m hk hp)
  · obtain ⟨ht, hjoin⟩ := hagree.member hkind hk hm
    obtain rfl : target = k := hparse k target htarget
    rw [hcheck, hcheck, ← ht, ← hs, ← hpl]
    by_cases hsel : SelectsJoinRules m
    · obtain ⟨hrules, hauth⟩ := hjoin hsel
      have hmember : authoriserMembership c ev f = authoriserMembership c ev g := by
        unfold authoriserMembership
        cases hu : authoriserOf c ev with
        | none => rfl
        | some u => rw [Option.bind_some, Option.bind_some, hauth u hu]
      rw [hrules, hmember]
      exact ⟨fun _ _ _ _ => Iff.rfl, fun _ => rfl⟩
    · rw [unselected_result hm.membershipOf hsel]
      constructor
      · intro h target' m' hr
        obtain ⟨k', hk', hp⟩ := hr.key
        obtain rfl : target = k' := Option.some.inj (hk.symm.trans hk')
        obtain rfl : target = target' := Option.some.inj (htarget.symm.trans hp)
        exact h hr.decodes
      · exact fun h hdecodes => h target m ⟨hkind, ⟨target, hk, htarget⟩, hm, hsel, ⟨cc, hcc, hroom⟩, hdecodes⟩

theorem rejects_injective : ∀ a b : Bool,
    (if a then some false else none) = (if b then some false else none) → a = b := by
  decide

theorem authCheck_selectsNothing (h : SelectsNothing ev) {cc : RoomCreateContentFields}
    (hcc : RoomCreateContentFields.parse create.content = .ok cc) (f : EventType → StateKey → Option Pdu) :
    (authCheck c v ev tpi f create).toOption =
      if roomRejects c v ev (f .roomPowerLevels "") create cc then some false else none := by
  obtain ⟨hkind, hkey, hobject⟩ := h
  rw [authCheck_member hkind, hcc]
  simp only [liftDe, bind, Except.bind]
  rw [memberCheck_noObject hkey hobject]
  split <;> rfl

/-- Lookups that agree on the selected keys give one result, unless the one reads
undecodable join rules and the other does not, or nothing is selected. -/
theorem auth_check_selected_iff (hparse : ∀ k u, c.parseUserId k = some u → u = k)
    (hagree : AgreeOnSelected c v ev f g) :
    (authCheck c v ev tpi f create).toOption = (authCheck c v ev tpi g create).toOption ↔
      (SelectsNothing ev → ∀ cc, RoomCreateContentFields.parse create.content = .ok cc →
        roomRejects c v ev (f .roomPowerLevels "") create cc = roomRejects c v ev
          (g .roomPowerLevels "") create cc) ∧
      ∀ target m, ReadsUnselectedRules c v ev create f target m →
        (Succeeds (joinRuleOf c (f .roomJoinRules "")) ↔ Succeeds (joinRuleOf c (g .roomJoinRules ""))) := by
  by_cases hkind : ev.kind = .roomMember
  case neg =>
    have heq : authCheck c v ev tpi f create = authCheck c v ev tpi g create := by
      by_cases hcreate : ev.kind = .roomCreate
      · simp only [authCheck, hcreate, if_true]
      · obtain ⟨hpl, hs⟩ := hagree.base hcreate fun h => absurd h hkind
        exact authCheck_other hcreate hkind hpl hs
    rw [heq]
    exact ⟨fun _ => ⟨fun hn => absurd hn.1 hkind, fun _ _ hr => absurd hr.kind hkind⟩, fun _ => rfl⟩
  cases hcc : RoomCreateContentFields.parse create.content with
  | error e =>
    rw [authCheck_member hkind, authCheck_member hkind, hcc]
    refine ⟨fun _ => ⟨fun _ cc h => ?_, fun _ _ hr => ?_⟩, fun _ => rfl⟩
    · cases h
    · obtain ⟨cc, h, -⟩ := hr.room
      cases hcc.symm.trans h
  | ok cc =>
    by_cases hn : SelectsNothing ev
    · rw [authCheck_selectsNothing hn hcc, authCheck_selectsNothing hn hcc]
      constructor
      · intro h
        refine ⟨fun _ cc' hcc' => ?_, fun _ _ hr => ?_⟩
        · obtain rfl : cc = cc' := Except.ok.inj hcc'
          exact rejects_injective _ _ h
        · have ho := hr.requested.isObject
          rw [hn.2.2] at ho
          cases ho
      · intro h
        rw [h.1 hn cc rfl]
    · have hobject : ev.stateKey.isSome = true → ev.content.asObject.isSome = true := fun hk =>
        Option.isSome_iff_ne_none.mpr fun ho => hn ⟨hkind, hk, ho⟩
      have hroom := (hagree.base (by rw [hkind]; exact EventType.noConfusion) fun _ => hobject).1
      rw [authCheck_member hkind, authCheck_member hkind, hcc, ← hroom]
      simp only [liftDe, bind, Except.bind]
      cases hrej : roomRejects c v ev (f .roomPowerLevels "") create cc with
      | true =>
        refine ⟨fun _ => ⟨fun h => absurd h hn, fun _ _ hr => ?_⟩, fun _ => rfl⟩
        obtain ⟨cc', hcc', h⟩ := hr.room
        obtain rfl : cc = cc' := Except.ok.inj (hcc.symm.trans hcc')
        cases hrej.symm.trans h
      | false =>
        simp only [Bool.false_eq_true, if_false]
        rw [memberCheck_agree hparse hkind hagree hobject hcc hrej]
        exact ⟨fun h => ⟨fun h' => absurd h' hn, h⟩, fun h => h.2⟩

end

/-! ## A member leaves a room with unreadable join rules -/

theorem plain_parses (k : String) (u : UserId) (h : Codec.plain.parseUserId k = some u) : u = k := by
  have h : Codec.readUserId (.str k) = .ok u := toOption_eq_some.mp h
  unfold Codec.readUserId at h
  simp only at h
  split at h
  · exact (Except.ok.inj h).symm
  · cases h

def bobLeaves : Pdu := stateEvent "$left" "@bob:a" .roomMember "@bob:a" [("membership", .str "leave")] ["$create"]

def ruledRoom (rule : Option Value) : EventType → StateKey → Option Pdu
  | .roomMember, "@bob:a" => some bobJoined
  | .roomJoinRules, "" =>
    rule.map fun r => stateEvent "$rules" "@alice:a" .roomJoinRules "" [("join_rule", r)] ["$create"]
  | _, _ => none

theorem ruledRoom_agree (rule rule' : Option Value) :
    AgreeOnSelected .plain .V10 bobLeaves (ruledRoom rule) (ruledRoom rule') := by
  intro keys hkeys
  have hsel : authTypesForEvent .plain bobLeaves.kind bobLeaves.sender bobLeaves.stateKey bobLeaves.content .V10 =
      .ok [(.roomPowerLevels, ""), (.roomMember, "@bob:a"), (.roomCreate, "")] := by decide
  obtain rfl := Except.ok.inj (hsel.symm.trans hkeys)
  simp [ruledRoom]

/-- Public rules and no rules: both let the member leave. -/
theorem auth_check_selected_public :
    (authCheck .plain .V10 bobLeaves none (ruledRoom (some (.str "public"))) roomCreated).toOption =
      (authCheck .plain .V10 bobLeaves none (ruledRoom none) roomCreated).toOption := by
  refine (auth_check_selected_iff plain_parses (ruledRoom_agree _ _)).mpr ⟨fun h => ?_, fun _ _ _ => ?_⟩
  · cases h.2.2
  · exact iff_of_true ⟨.public, rfl⟩ ⟨.invite, rfl⟩

/-- Join rules that are no string: nothing selected differs, and the one check allows
the member to leave, the other fails. -/
theorem unselected_join_rules_fail :
    AgreeOnSelected .plain .V10 bobLeaves (ruledRoom none) (ruledRoom (some (.num 5))) ∧
      authCheck .plain .V10 bobLeaves none (ruledRoom none) roomCreated = .ok true ∧
      ∃ e, authCheck .plain .V10 bobLeaves none (ruledRoom (some (.num 5))) roomCreated = .error e :=
  ⟨ruledRoom_agree _ _, by decide, .codec (.expected "string"), by decide⟩

end Congruent
