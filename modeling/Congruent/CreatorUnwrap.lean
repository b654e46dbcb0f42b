import Congruent.MembershipReads

/-!
# What an accepted create event promises

A create event is accepted on a few of its fields, and `auth_check` later unwraps its
decoded creator in two places. What was accepted is enough for the one, the level of
the sender; for the other, a member event in a room without power levels, the whole
content has to decode.
-/

namespace Congruent

def Codec.RejectsStrangeCreators (c : Codec) : Prop :=
  ∀ content value decoded, content.optional "creator" = some value → c.roomCreate content = .ok decoded →
    ∃ creator, decoded.creator = some creator

/-! ## Accepted create events -/

theorem RoomVersion.new_mem {id : RoomVersionId} {v : RoomVersion} (h : RoomVersion.new id = .ok v) :
    v ∈ [V1, V2, V3, V4, V5, V6, V7, V8, V9, V10, V11, V12, V12_1] := by
  unfold RoomVersion.new at h
  split at h
  case h_13 =>
    split at h
    · cases h
      decide
    split at h
    · cases h
      decide
    split at h
    · cases h
      decide
    · cases h
  all_goals
    cases h
    decide

theorem RoomVersion.new_privileged {id : RoomVersionId} {v : RoomVersion} (h : RoomVersion.new id = .ok v) :
    v.explicitlyPrivilegeRoomCreators = true → v.useRoomCreateSender = true :=
  (by decide : ∀ v ∈ [V1, V2, V3, V4, V5, V6, V7, V8, V9, V10, V11, V12, V12_1],
    v.explicitlyPrivilegeRoomCreators = true → v.useRoomCreateSender = true) v (new_mem h)

theorem Value.object_eq_ok {content o : Value} (h : content.object = .ok o) : content = o := by
  unfold Value.object at h
  split at h
  · exact Except.ok.inj h
  · cases h

theorem RoomCreateContentFields.parse_creator {content : Value} {fields : RoomCreateContentFields}
    (h : RoomCreateContentFields.parse content = .ok fields) : fields.creator = content.optional "creator" := by
  unfold RoomCreateContentFields.parse at h
  obtain ⟨o, ho, h⟩ := bind_eq_ok.mp h
  obtain ⟨additional, -, h⟩ := bind_eq_ok.mp h
  obtain ⟨federate, -, h⟩ := bind_eq_ok.mp h
  rw [Value.object_eq_ok ho, ← Except.ok.inj h]

section
variable {c : Codec} {v : RoomVersion} {create : Pdu}

theorem createCheck_creator (h : createCheck c v create = .ok true) (hs : v.useRoomCreateSender = false)
    (hp : v.explicitlyPrivilegeRoomCreators = false) : (create.content.optional "creator").isSome = true := by
  unfold createCheck at h
  split at h
  · cases h
  split at h
  · cases h
  obtain ⟨content, hcontent, h⟩ := bind_eq_ok.mp h
  rw [← RoomCreateContentFields.parse_creator (liftDe_eq_ok.mp hcontent)]
  cases hc : content.creator with
  | some creator => rfl
  | none =>
    split at h
    · cases h
    · rw [if_pos (by simp [hs, hp, hc])] at h
      cases h

theorem createCheck_decoded (hc : c.RejectsStrangeCreators)
    (hv : v.explicitlyPrivilegeRoomCreators = true → v.useRoomCreateSender = true)
    (h : createCheck c v create = .ok true) (hs : v.useRoomCreateSender = false) {content : RoomCreateEventContent}
    (hcontent : c.roomCreate create.content = .ok content) : ∃ creator, content.creator = some creator := by
  have hp : v.explicitlyPrivilegeRoomCreators = false :=
    Bool.eq_false_iff.mpr fun hp => Bool.eq_false_iff.mp hs (hv hp)
  obtain ⟨value, hvalue⟩ := Option.isSome_iff_exists.mp (createCheck_creator h hs hp)
  exact hc _ _ _ hvalue hcontent

theorem createCheck_unknown (hc : c.RejectsStrangeCreators)
    (hv : v.explicitlyPrivilegeRoomCreators = true → v.useRoomCreateSender = true)
    (h : createCheck c v create = .ok true) (havePls : Bool) :
    ¬ KnowsCreator c v create havePls ↔
      v.useRoomCreateSender = false ∧ havePls = false ∧ ¬ Succeeds (c.roomCreate create.content) := by
  unfold KnowsCreator
  constructor
  · intro hk
    simp only [not_or, Bool.not_eq_true] at hk
    obtain ⟨-, hs, hpl, hno⟩ := hk
    refine ⟨hs, hpl, fun ⟨content, hcontent⟩ => hno ?_⟩
    obtain ⟨creator, hcreator⟩ := createCheck_decoded hc hv h hs hcontent
    exact ⟨content, creator, hcontent, hcreator⟩
  · rintro ⟨hs, hpl, hno⟩ (hp | hs' | hpl' | ⟨content, -, hcontent, -⟩)
    · rw [hv hp] at hs
      cases hs
    · rw [hs] at hs'
      cases hs'
    · rw [hpl] at hpl'
      cases hpl'
    · exact hno ⟨content, hcontent⟩

end

/-! ## Checks that do not unwind -/

theorem panics_ite {α : Type} {p : Prop} [Decidable p] {x y : Except Error α} :
    Panics (if p then x else y) ↔ p ∧ Panics x ∨ ¬ p ∧ Panics y := by
  by_cases hp : p <;> simp [hp]

section
variable {c : Codec} {v : RoomVersion} (ev create : Pdu)

theorem createCheck_panics : ¬ Panics (createCheck c v ev) := by
  simp [createCheck, panics_ite, panics_bind]

theorem senderIsJoined_panics (member : Option Pdu) : ¬ Panics (senderIsJoined c v member create) := by
  cases member with
  | none => exact panics_ok _
  | some member =>
    simp only [senderIsJoined, panics_ite, panics_bind, panics_ok, panics_liftDe, and_false, false_or, not_and]
    rintro - ⟨content, -, h⟩
    cases hm : content.membership with
    | none =>
      rw [hm] at h
      obtain ⟨why, h⟩ := h
      cases h
    | some membership =>
      rw [hm] at h
      simp [panics_bind] at h

theorem decodeCreators_panics (creators : List Value) : ¬ Panics (decodeCreators c creators) := by
  induction creators with
  | nil => exact panics_ok _
  | cons creator rest ih => simp [decodeCreators, panics_bind, ih]

theorem powerLevelsCheck_panics (powerLevels : Option Pdu) (level : Int) (content : RoomCreateContentFields) :
    ¬ Panics (powerLevelsCheck c v ev powerLevels level create content) := by
  simp [powerLevelsCheck, powerLevelCreators, panics_ite, panics_bind, decodeCreators_panics]

theorem redactionCheck_panics (powerLevels : Option Pdu) (level : Int) :
    ¬ Panics (redactionCheck c v ev powerLevels level) := by
  cases powerLevels <;> simp [redactionCheck, panics_ite, panics_bind]

variable {create}

theorem listedPowerLevel_panics (hc : c.RejectsStrangeCreators)
    (hv : v.explicitlyPrivilegeRoomCreators = true → v.useRoomCreateSender = true)
    (h : createCheck c v create = .ok true) (powerLevels : Option Pdu) (sender : UserId) :
    ¬ Panics (listedPowerLevel c v powerLevels create sender) := by
  cases powerLevels with
  | some pl => simp [listedPowerLevel, panics_bind]
  | none =>
    unfold listedPowerLevel
    simp only
    cases hs : v.useRoomCreateSender with
    | true => simp
    | false =>
      cases hcontent : c.roomCreate create.content with
      | error e => simp
      | ok content =>
        obtain ⟨creator, hcreator⟩ := createCheck_decoded hc hv h hs hcontent
        simp [hcreator]

theorem powerCheck_panics (hc : c.RejectsStrangeCreators)
    (hv : v.explicitlyPrivilegeRoomCreators = true → v.useRoomCreateSender = true)
    (h : createCheck c v create = .ok true) (powerLevels : Option Pdu) (content : RoomCreateContentFields) :
    ¬ Panics (powerCheck c v ev powerLevels create content) := by
  unfold powerCheck senderPowerLevel
  cases powerLevels <;>
    simp [panics_ite, panics_bind, listedPowerLevel_panics hc hv h, powerLevelsCheck_panics, redactionCheck_panics]

end

/-! ## The check -/

section
variable (c : Codec) (v : RoomVersion) (ev create : Pdu) (f : EventType → StateKey → Option Pdu)

/-- A member event in its room whose check comes to the creator while there are no power
levels: what is read before decodes, and the create content does not. -/
structure UnwrapsCreate (target : UserId) : Prop where
  kind : ev.kind = .roomMember
  key : ∃ k, ev.stateKey = some k ∧ c.parseUserId k = some target
  requested : ∃ m, Requests c ev m
  room : ∃ createContent, RoomCreateContentFields.parse create.content = .ok createContent ∧
    roomRejects c v ev (f .roomPowerLevels "") create createContent = false
  sender : Succeeds (membershipOrLeave c (f .roomMember ev.sender))
  target : Succeeds (membershipOrLeave c (f .roomMember target))
  joinRules : Succeeds (joinRuleOf c (f .roomJoinRules ""))
  creatorField : v.useRoomCreateSender = false
  noLevels : f .roomPowerLevels "" = none
  undecoded : ¬ Succeeds (c.roomCreate create.content)

end

section
variable {c : Codec} {v : RoomVersion} {ev create : Pdu} {tpi : Option Pdu} {f : EventType → StateKey → Option Pdu}

theorem authCheck_other_panics (hc : c.RejectsStrangeCreators)
    (hv : v.explicitlyPrivilegeRoomCreators = true → v.useRoomCreateSender = true)
    (h : createCheck c v create = .ok true) (hkind : ev.kind ≠ .roomMember) :
    ¬ Panics (authCheck c v ev tpi f create) := by
  unfold authCheck
  simp [hkind, panics_ite, panics_bind, createCheck_panics, senderIsJoined_panics, powerCheck_panics _ hc hv h]

theorem memberCheck_panics (hc : c.RejectsStrangeCreators)
    (hv : v.explicitlyPrivilegeRoomCreators = true → v.useRoomCreateSender = true)
    (h : createCheck c v create = .ok true) (hkind : ev.kind = .roomMember) {cc : RoomCreateContentFields}
    (hcc : RoomCreateContentFields.parse create.content = .ok cc)
    (hroom : roomRejects c v ev (f .roomPowerLevels "") create cc = false) :
    Panics (memberCheck c v ev tpi f create) ↔ ∃ target, UnwrapsCreate c v ev create f target := by
  rcases memberCheck_cases c ev v tpi create with ⟨hno, r, -, hr, hcheck⟩ | ⟨k, target, m, hk, htarget, hm, hcheck⟩
  · rw [hcheck]
    refine iff_of_false hr ?_
    rintro ⟨target, hu⟩
    obtain ⟨k, hk, hp⟩ := hu.key
    obtain ⟨m, hm⟩ := hu.requested
    exact hno k target m hk hp hm
  · rw [hcheck, validMembershipChange_panics, createCheck_unknown hc hv h]
    constructor
    · rintro ⟨-, -, hsender, htm, hrule, hs, hpl, hno⟩
      exact ⟨target, hkind, ⟨k, hk, htarget⟩, ⟨m, hm⟩, ⟨cc, hcc, hroom⟩, hsender, htm, hrule, hs,
        by simpa using hpl, hno⟩
    · rintro ⟨target', hu⟩
      obtain ⟨k', hk', hp⟩ := hu.key
      obtain rfl : k = k' := Option.some.inj (hk.symm.trans hk')
      obtain rfl : target = target' := Option.some.inj (htarget.symm.trans hp)
      exact ⟨⟨cc, hcc⟩, ⟨m, hm.membershipOf⟩, hu.sender, hu.target, hu.joinRules, hu.creatorField,
        by rw [hu.noLevels]; rfl, hu.undecoded⟩

/-- With an accepted create event the check returns for every event, but for a member
event that makes it unwrap a create content that does not decode. -/
theorem auth_check_returns_iff {id : RoomVersionId} {create' : Pdu} {tpi' : Option Pdu}
    {f' : EventType → StateKey → Option Pdu} (hc : c.RejectsStrangeCreators) (hv : RoomVersion.new id = .ok v)
    (hkind : create.kind = .roomCreate) (haccepted : authCheck c v create tpi' f' create' = .ok true) :
    ¬ Panics (authCheck c v ev tpi f create) ↔ ¬ ∃ target, UnwrapsCreate c v ev create f target := by
  have hv := RoomVersion.new_privileged hv
  have h : createCheck c v create = .ok true := by
    rwa [authCheck, if_pos hkind] at haccepted
  refine not_congr ?_
  by_cases hmember : ev.kind = .roomMember
  case neg =>
    exact iff_of_false (authCheck_other_panics hc hv h hmember) (not_exists.mpr fun _ hu => hmember hu.kind)
  rw [authCheck_member hmember]
  cases hcc : RoomCreateContentFields.parse create.content with
  | error e =>
    refine iff_of_false ?_ ?_
    · rintro ⟨why, hp⟩
      cases hp
    · rintro ⟨target, hu⟩
      obtain ⟨cc, h, -⟩ := hu.room
      cases hcc.symm.trans h
  | ok cc =>
    simp only [liftDe, bind, Except.bind]
    cases hroom : roomRejects c v ev (f .roomPowerLevels "") create cc with
    | true =>
      refine iff_of_false (panics_ok _) ?_
      rintro ⟨target, hu⟩
      obtain ⟨cc', hcc', h⟩ := hu.room
      obtain rfl : cc = cc' := Except.ok.inj (hcc.symm.trans hcc')
      cases hroom.symm.trans h
    | false =>
      simp only [Bool.false_eq_true, if_false]
      exact memberCheck_panics hc hv h hmember hcc hroom

end

/-! ## The first join after a create event with a strange creator -/

theorem plain_rejectsStrangeCreators : Codec.plain.RejectsStrangeCreators := by
  intro content value decoded hvalue h
  obtain ⟨o, ho, h⟩ := bind_eq_ok.mp h
  obtain ⟨creator, hcreator, h⟩ := bind_eq_ok.mp h
  obtain ⟨version, -, h⟩ := bind_eq_ok.mp h
  obtain ⟨additional, -, h⟩ := bind_eq_ok.mp h
  rw [← Value.object_eq_ok ho, Codec.readOptional, hvalue] at hcreator
  obtain ⟨user, -, hcreator⟩ := bind_eq_ok.mp hcreator
  refine ⟨user, ?_⟩
  rw [← Except.ok.inj h]
  exact (Except.ok.inj hcreator).symm

/-- A create event that names `creator`. -/
def createdBy (creator : Value) : Pdu :=
  stateEvent "$create" "@alice:a" .roomCreate "" [("creator", creator)] []

def aliceJoins : Pdu :=
  { stateEvent "$alice" "@alice:a" .roomMember "@alice:a" [("membership", .str "join")] ["$create"] with
    prevEvents := ["$create"] }

theorem auth_check_returns_alice :
    ¬ Panics (authCheck .plain .V10 aliceJoins none (fun _ _ => none) (createdBy (.str "@alice:a"))) := by
  have haccepted : authCheck .plain .V10 (createdBy (.str "@alice:a")) none (fun _ _ => none)
      (createdBy (.str "@alice:a")) = .ok true := by decide
  have hversion : RoomVersion.new .V10 = .ok .V10 := rfl
  refine (auth_check_returns_iff plain_rejectsStrangeCreators hversion rfl haccepted).mpr ?_
  rintro ⟨target, hu⟩
  exact hu.undecoded ⟨_, rfl⟩

/-- The create event is accepted, and the first join unwinds. -/
theorem first_join_panics :
    authCheck .plain .V10 (createdBy (.num 5)) none (fun _ _ => none) (createdBy (.num 5)) = .ok true ∧
      authCheck .plain .V10 aliceJoins none (fun _ _ => none) (createdBy (.num 5)) =
        .error (.panic "create content") :=
  ⟨by decide, by decide⟩

end Congruent
