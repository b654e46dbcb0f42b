import Congruent.PowerLevels

/-!
# Event authorization

The authorization rules (`state_res/event_auth.rs`): which state an event is
checked against, and whether that state allows it.
-/

namespace Congruent

/-- `?` on a codec result. -/
def liftDe {α : Type} : Except DeError α → Except Error α
  | .ok a => .ok a
  | .error e => .error (.codec e)

theorem bind_eq_ok {ε α β : Type} {x : Except ε α} {f : α → Except ε β} {b : β} :
    (x >>= f) = .ok b ↔ ∃ a, x = .ok a ∧ f a = .ok b := by
  cases x with
  | error e => exact ⟨fun h => (by cases h), fun ⟨a, h, _⟩ => (by cases h)⟩
  | ok a => exact ⟨fun h => ⟨a, rfl, h⟩, fun ⟨a', h, h'⟩ => by cases h; exact h'⟩

theorem liftDe_eq_ok {α : Type} {x : Except DeError α} {a : α} : liftDe x = .ok a ↔ x = .ok a := by
  cases x <;> simp [liftDe]

structure RoomMemberContentFields where
  membership : Option Value
  joinAuthorisedViaUsersServer : Option Value

def RoomMemberContentFields.parse (content : Value) : Except DeError RoomMemberContentFields := do
  let content ← content.object
  .ok ⟨content.optional "membership", content.optional "join_authorised_via_users_server"⟩

structure RoomCreateContentFields where
  roomVersion : Option Value
  creator : Option Value
  additionalCreators : Option (List Value)
  federate : Bool

namespace RoomCreateContentFields

def readAdditionalCreators (content : Value) : Except DeError (Option (List Value)) :=
  match content.optional "additional_creators" with
  | none => .ok none
  | some value =>
    match value.asArray with
    | some xs => .ok (some xs)
    | none => .error (.expected "array")

def readFederate (content : Value) : Except DeError Bool :=
  match content.get "m.federate" with
  | none => .ok true
  | some value =>
    match value.asBool with
    | some b => .ok b
    | none => .error (.expected "bool")

def parse (content : Value) : Except DeError RoomCreateContentFields := do
  let content ← content.object
  let additionalCreators ← readAdditionalCreators content
  let federate ← readFederate content
  .ok ⟨content.optional "room_version", content.optional "creator", additionalCreators, federate⟩

end RoomCreateContentFields

/-- Whether an optional decoded field is a user id equal to `user`. -/
def decodesTo (c : Codec) (user : UserId) (v : Value) : Bool :=
  match c.userId v with
  | .ok u => u = user
  | .error _ => false

section
variable (c : Codec)

def membershipOf (content : Value) : Except DeError MembershipState := do
  c.membershipState (← (← content.object).required "membership")

/-! ## The state an event is checked against -/

/-- `if !auth_types.contains(&key) { auth_types.push(key) }`. -/
def pushKey (keys : List TypeStateKey) (key : TypeStateKey) : List TypeStateKey :=
  if key ∈ keys then keys else keys ++ [key]

def memberAuthTypes (keys : List TypeStateKey) (stateKey : StateKey) (content : Value)
    (membership : MembershipState) : List TypeStateKey :=
  let keys :=
    if membership = .join ∨ membership = .invite ∨ membership = .knock then
      let keys := pushKey keys (.roomJoinRules, "")
      match (content.optional "join_authorised_via_users_server").map c.userId with
      | some (.ok u) => pushKey keys (.roomMember, u)
      | _ => keys
    else keys
  let keys := pushKey keys (.roomMember, stateKey)
  if membership = .invite then
    match (content.optional "third_party_invite").map c.thirdPartyInvite with
    | some (.ok tp) => pushKey keys (.roomThirdPartyInvite, tp.signed.token)
    | _ => keys
  else keys

def authTypesForEvent (kind : EventType) (sender : UserId) (stateKey : Option StateKey) (content : Value)
    (v : RoomVersion) : Except DeError (List TypeStateKey) :=
  if kind = .roomCreate then .ok []
  else
    let keys : List TypeStateKey :=
      if v.roomIdsAsHashes then [(.roomPowerLevels, ""), (.roomMember, sender)]
      else [(.roomPowerLevels, ""), (.roomMember, sender), (.roomCreate, "")]
    match kind, stateKey with
    | .roomMember, some stateKey =>
      if content.asObject.isNone then .error (.expected "object")
      else
        match (content.optional "membership").map c.membershipState with
        | some (.ok membership) => .ok (memberAuthTypes c keys stateKey content membership)
        | _ => .ok keys
    | _, _ => .ok keys

/-! ## Small checks -/

def getSendLevel (kind : EventType) (stateKey : Option StateKey) (powerLevels : Option Pdu) : Int :=
  match powerLevels.bind fun pl => (c.roomPowerLevels pl.content).toOption with
  | some content =>
    match content.events.lookup kind with
    | some n => n
    | none => if stateKey.isSome then content.stateDefault else content.eventsDefault
  | none => if stateKey.isSome then 50 else 0

def canSendEvent (ev : Pdu) (powerLevels : Option Pdu) (userLevel : Int) : Bool :=
  if userLevel < getSendLevel c ev.kind ev.stateKey powerLevels then false
  else if (ev.stateKey.any fun k => (stripChar '@' k).isSome) && ev.stateKey ≠ some ev.sender then false
  else true

def checkRedaction (redaction : Pdu) (userLevel redactLevel : Int) : Bool :=
  if userLevel ≥ redactLevel then true
  else c.eventServerName redaction.eventId = redaction.redacts.bind c.eventServerName

def verifyThirdPartyInvite (target : Option UserId) (sender : UserId) (tp : ThirdPartyInvite)
    (current : Option Pdu) : Bool :=
  if target ≠ some tp.signed.mxid then false
  else
    match current with
    | none => false
    | some current =>
      if current.stateKey ≠ some tp.signed.token then false
      else if sender ≠ current.sender then false
      else
        match (c.roomThirdPartyInvite current.content).toOption, c.base64 tp.signed.token with
        | some content, some token =>
          if (content.publicKeys.getD []).any fun key => (key.get "public_key").bind Value.asStr = some token then
            true
          else content.publicKey = some token
        | _, _ => false

/-! ## Power levels -/

/-- `level > Some(&user_level)` on optional levels. -/
def tooBig (level : Option Int) (userLevel : Int) : Bool := level.any fun n => userLevel < n

/-- The loop body for one key of `users`. -/
def userLevelOk (creators : List UserId) (sender user : UserId) (userLevel : Int) (old new : Option Int) :
    Bool :=
  if old.isSome && new.isSome && old = new then true
  else if user ∈ creators then true
  else if user ≠ sender && old = some userLevel then false
  else !tooBig old userLevel && !tooBig new userLevel

/-- The loop body for one key of `events`. -/
def eventLevelOk (userLevel : Int) (old new : Option Int) : Bool :=
  if old.isSome && new.isSome && old = new then true
  else !tooBig old userLevel && !tooBig new userLevel

def notificationsOk (userLevel old new : Int) : Bool :=
  if old ≠ new then !(userLevel < old || userLevel < new) else true

/-- The top-level keys of a power-levels content that carry a level. -/
def levelNames : List String :=
  ["users_default", "events_default", "state_default", "ban", "redact", "kick", "invite"]

def getDeserializeLevels (old new : Value) (name : String) : Option (Int × Int) := do
  let o ← old.get name
  let o ← (c.int o).toOption
  let n ← new.get name
  let n ← (c.int n).toOption
  some (o, n)

def topLevelOk (userLevel : Int) (old new : Value) (name : String) : Bool :=
  match getDeserializeLevels c old new name with
  | some (o, n) => !(userLevel < o || userLevel < n)
  | none => true

def levelChangesOk (v : RoomVersion) (sender : UserId) (userLevel : Int) (creators : List UserId)
    (old new : RoomPowerLevelsEventContent) : Bool :=
  ((old.users.keys ++ new.users.keys).dedup.all fun user =>
      userLevelOk creators sender user userLevel (old.users.lookup user) (new.users.lookup user)) &&
    ((old.events.keys ++ new.events.keys).dedup.all fun kind =>
      eventLevelOk userLevel (old.events.lookup kind) (new.events.lookup kind)) &&
    (!v.limitNotificationsPowerLevels ||
      notificationsOk userLevel old.notificationsRoom new.notificationsRoom) &&
    levelNames.all (topLevelOk c userLevel (c.powerLevelsToValue old) (c.powerLevelsToValue new))

def checkPowerLevels (v : RoomVersion) (powerEvent : Pdu) (previous : Option Pdu) (userLevel : Int)
    (creators : List UserId) : Option Bool :=
  if powerEvent.stateKey ≠ some "" then none
  else
    match deserializePowerLevels c powerEvent.content v with
    | none => none
    | some new =>
      match previous with
      | none => some true
      | some current =>
        match deserializePowerLevels c current.content v with
        | none => none
        | some old => some (levelChangesOk c v powerEvent.sender userLevel creators old new)

/-- The additional creators that decode, as `filter_map(|c| decode(c).ok())`. -/
def decodedCreators (content : RoomCreateContentFields) : List UserId :=
  (content.additionalCreators.getD []).filterMap fun v => (c.userId v).toOption

/-- Whether the create event gives `user` infinite power, where the room version
privileges creators. -/
def isPrivilegedCreator (create : Pdu) (content : RoomCreateContentFields) (user : UserId) : Bool :=
  user = create.sender || (content.additionalCreators.getD []).any (decodesTo c user)

/-- The sender's level from the power-levels event, or without one from the
create event. -/
def listedPowerLevel (v : RoomVersion) (powerLevels : Option Pdu) (create : Pdu) (sender : UserId) :
    Except Error Int :=
  match powerLevels with
  | some pl => do
    let content ← liftDe (deserializePowerLevelsContentFields c pl.content v)
    .ok ((content.getUserPower sender).getD content.usersDefault)
  | none =>
    if v.useRoomCreateSender then .ok (if create.sender = sender then 100 else 0)
    else
      match c.roomCreate create.content with
      | .error _ => .ok 0
      | .ok content =>
        match content.creator with
        | none => .error (.panic "creator")
        | some creator => .ok (if creator = sender then 100 else 0)

def senderPowerLevel (v : RoomVersion) (powerLevels : Option Pdu) (create : Pdu)
    (createContent : RoomCreateContentFields) (sender : UserId) : Except Error Int := do
  let level ← listedPowerLevel c v powerLevels create sender
  if v.explicitlyPrivilegeRoomCreators && isPrivilegedCreator c create createContent sender then .ok intMax
  else .ok level

/-! ## Membership -/

def isCreator (v : RoomVersion) (creators : List UserId) (create : Pdu) (user : UserId) (havePls : Bool) :
    Except Error Bool :=
  if v.explicitlyPrivilegeRoomCreators then
    if user ∈ creators then .ok true
    else
      match RoomCreateContentFields.parse create.content with
      | .error _ => .ok false
      | .ok content =>
        if create.sender = user then .ok true
        else .ok ((content.additionalCreators.getD []).any (decodesTo c user))
  else if v.useRoomCreateSender && !havePls then .ok (create.sender = user)
  else if !havePls then
    match c.roomCreate create.content with
    | .error _ => .error (.panic "create content")
    | .ok content =>
      match content.creator with
      | none => .error (.panic "missing field `creator`")
      | some creator => .ok (creator = user)
  else .ok false

/-- What a membership change is decided on. -/
structure MembershipFacts where
  sender : UserId
  target : UserId
  senderMembership : MembershipState
  targetMembership : MembershipState
  senderPower : Int
  targetPower : Int
  senderCreator : Bool
  targetCreator : Bool
  joinRules : JoinRule
  levels : RoomPowerLevelsEventContent
  /-- The user named in `join_authorised_via_users_server` may invite. -/
  joinAuthIsValid : Bool

namespace MembershipFacts

def joinRulesAllow (v : RoomVersion) (f : MembershipFacts) : Bool :=
  let membershipAllowsJoin := f.targetMembership = .join || f.targetMembership = .invite
  match f.joinRules with
  | .invite => membershipAllowsJoin
  | .knock => v.allowKnocking && membershipAllowsJoin
  | .knockRestricted => v.knockRestrictedJoinRule && (membershipAllowsJoin || f.joinAuthIsValid)
  | .restricted => membershipAllowsJoin || f.joinAuthIsValid
  | .public => true
  | _ => false

def allowJoin (v : RoomVersion) (f : MembershipFacts) (prevEvents : List EventId) (createId : EventId) :
    Bool :=
  if prevEvents = [createId] && f.senderCreator && f.targetCreator then true
  else if f.sender ≠ f.target then false
  else if f.targetMembership = .ban then false
  else if f.targetMembership = .join then true
  else f.joinRulesAllow v

def allowInvite (f : MembershipFacts) (thirdPartyInvite : Option ThirdPartyInvite) (current : Option Pdu) :
    Bool :=
  match thirdPartyInvite with
  | some tp =>
    if f.targetMembership = .ban then false
    else verifyThirdPartyInvite c (some f.target) f.sender tp current
  | none =>
    if f.senderMembership ≠ .join then false
    else if f.targetMembership = .join || f.targetMembership = .ban then false
    else f.senderCreator || f.senderPower ≥ f.levels.invite

def canUnban (f : MembershipFacts) : Bool :=
  if f.targetMembership = .ban then
    (f.senderCreator && !f.targetCreator) || f.senderPower ≥ f.levels.ban
  else true

def canKick (f : MembershipFacts) : Bool :=
  if f.targetMembership ≠ .ban && f.targetMembership ≠ .leave then
    if f.senderCreator && !f.targetCreator then true
    else if f.senderPower < f.levels.kick then false
    else f.senderPower > f.targetPower
  else true

def allowLeave (f : MembershipFacts) : Bool :=
  if f.sender = f.target then
    f.targetMembership = .join || f.targetMembership = .invite || f.targetMembership = .knock
  else if f.senderMembership ≠ .join then false
  else f.canUnban && f.canKick

def allowBan (f : MembershipFacts) : Bool :=
  if f.senderMembership ≠ .join then false
  else (f.senderCreator && !f.targetCreator) ||
    (f.senderPower ≥ f.levels.ban && f.targetPower < f.senderPower)

def allowKnock (v : RoomVersion) (f : MembershipFacts) : Bool :=
  if f.joinRules ≠ .knockRestricted && f.joinRules ≠ .knock then false
  else if f.joinRules = .knockRestricted && !v.knockRestrictedJoinRule then false
  else if f.sender ≠ f.target then false
  else !(f.senderMembership = .ban || f.senderMembership = .invite || f.senderMembership = .join)

end MembershipFacts

/-- The membership of a member event, `leave` without one. -/
def membershipOrLeave (event : Option Pdu) : Except DeError MembershipState :=
  match event with
  | some pdu => membershipOf c pdu.content
  | none => .ok .leave

def joinAuthIsValid (v : RoomVersion) (creators : List UserId) (create : Pdu) (powerLevels : Option Pdu)
    (user : Option UserId) (membership : MembershipState) : Except Error Bool :=
  match user with
  | none => .ok false
  | some user => do
    let (userLevel, inviteLevel) ← match powerLevels with
      | some pl => do
        let invite ← liftDe (deserializePowerLevelsContentInvite pl.content v)
        let content ← liftDe (deserializePowerLevelsContentFields c pl.content v)
        .ok ((content.getUserPower user).getD content.usersDefault, invite)
      | none => .ok (0, 0)
    let creator ← isCreator c v creators create user powerLevels.isSome
    .ok (membership = .join && (creator || userLevel ≥ inviteLevel))

def membershipPowerLevels (powerLevels : Option Pdu) : Except Error RoomPowerLevelsEventContent :=
  match powerLevels with
  | some pl =>
    match c.roomPowerLevels pl.content with
    | .ok content => .ok content
    | .error e => .error (.invalidPdu (c.errorText e))
  | none => .ok c.powerLevelsDefault

def validMembershipChange (v : RoomVersion) (target : UserId) (targetMember : Option Pdu) (sender : UserId)
    (senderMember : Option Pdu) (event : Pdu) (currentThirdPartyInvite powerLevels joinRules : Option Pdu)
    (userForJoinAuth : Option UserId) (userForJoinAuthMembership : MembershipState) (create : Pdu) :
    Except Error Bool := do
  let createContent ← liftDe (RoomCreateContentFields.parse create.content)
  let targetMembership ← liftDe (membershipOf c event.content)
  let thirdPartyInvite := (event.content.optional "third_party_invite").bind
    fun tp => (c.thirdPartyInvite tp).toOption
  let senderMembership ← liftDe (membershipOrLeave c senderMember)
  let targetCurrentMembership ← liftDe (membershipOrLeave c targetMember)
  let levels ← membershipPowerLevels c powerLevels
  let creators := create.sender ::
    if v.explicitlyPrivilegeRoomCreators then decodedCreators c createContent else []
  let power user :=
    if v.explicitlyPrivilegeRoomCreators && user ∈ creators then intMax
    else (levels.users.lookup user).getD levels.usersDefault
  let joinRule ← match joinRules with
    | some jr => (do .ok (← liftDe (c.roomJoinRules jr.content)).joinRule)
    | none => .ok .invite
  let authIsValid ← joinAuthIsValid c v creators create powerLevels userForJoinAuth userForJoinAuthMembership
  let senderCreator ← isCreator c v creators create sender powerLevels.isSome
  let targetCreator ← isCreator c v creators create target powerLevels.isSome
  let facts : MembershipFacts :=
    ⟨sender, target, senderMembership, targetCurrentMembership, power sender, power target, senderCreator,
      targetCreator, joinRule, levels, authIsValid⟩
  .ok <| match targetMembership with
    | .join => facts.allowJoin v event.prevEvents create.eventId
    | .invite => facts.allowInvite c thirdPartyInvite currentThirdPartyInvite
    | .leave => facts.allowLeave
    | .ban => facts.allowBan
    | .knock => v.allowKnocking && facts.allowKnock v
    | .custom _ => false

/-! ## The check -/

def unsupportedVersion (content : RoomCreateContentFields) : Bool :=
  content.roomVersion.any fun v => (c.roomVersionId v).toOption.isNone

/-- The rules for `m.room.create`. -/
def createCheck (v : RoomVersion) (ev : Pdu) : Except Error Bool :=
  if ev.prevEvents ≠ [] then .ok false
  else if !v.roomIdsAsHashes && (ev.roomId.any fun r => c.roomServerName r ≠ some (c.userServerName ev.sender)) then
    .ok false
  else do
    let content ← liftDe (RoomCreateContentFields.parse ev.content)
    if unsupportedVersion c content then .ok false
    else if !v.useRoomCreateSender && !v.explicitlyPrivilegeRoomCreators && content.creator.isNone then .ok false
    else .ok true

def roomRejects (v : RoomVersion) (ev : Pdu) (powerLevels : Option Pdu) (create : Pdu)
    (createContent : RoomCreateContentFields) : Bool :=
  let expectsRoomId := !v.roomIdsAsHashes
  let expectedRoomId := create.roomIdOrHash c
  unsupportedVersion c createContent ||
    (expectsRoomId && ev.roomIdOrHash c ≠ expectedRoomId) ||
    (if create.eventId ∈ ev.authEvents then v.roomIdsAsHashes else !v.roomIdsAsHashes) ||
    (expectsRoomId && powerLevels.any fun pl => pl.roomIdOrHash c ≠ expectedRoomId) ||
    (!createContent.federate && c.userServerName create.sender ≠ c.userServerName ev.sender)

/-- The rules for `m.room.member`. -/
def memberCheck (v : RoomVersion) (ev : Pdu) (currentThirdPartyInvite : Option Pdu)
    (fetchState : EventType → StateKey → Option Pdu) (create : Pdu) : Except Error Bool :=
  match ev.stateKey with
  | none => .ok false
  | some stateKey => do
    let content ← liftDe (RoomMemberContentFields.parse ev.content)
    if ((content.membership.bind fun m => (c.membershipState m).toOption)).isNone then .ok false
    else
      match c.parseUserId stateKey with
      | none => .ok false
      | some target =>
        let userForJoinAuth := content.joinAuthorisedViaUsersServer.bind fun u => (c.userId u).toOption
        let joinAuthEvent := userForJoinAuth.bind fun u => fetchState .roomMember u
        let joinAuthMembership :=
          (joinAuthEvent.bind fun m => (membershipOf c m.content).toOption).getD .leave
        validMembershipChange c v target (fetchState .roomMember target) ev.sender
          (fetchState .roomMember ev.sender) ev currentThirdPartyInvite (fetchState .roomPowerLevels "")
          (fetchState .roomJoinRules "") userForJoinAuth joinAuthMembership create

/-- The sender must be joined: `ok false` or an error otherwise. -/
def senderIsJoined (v : RoomVersion) (senderMember : Option Pdu) (create : Pdu) : Except Error Bool :=
  match senderMember with
  | none => .ok false
  | some member =>
    if !v.roomIdsAsHashes && member.roomIdOrHash c ≠ create.roomIdOrHash c then .ok false
    else do
      let content ← liftDe (RoomMemberContentFields.parse member.content)
      match content.membership with
      | none => .error (.invalidPdu "Missing membership field")
      | some membership => do .ok ((← liftDe (c.membershipState membership)) = .join)

/-- `for creator in additional_creators { creators.insert(decode(creator)?) }`. -/
def decodeCreators : List Value → Except Error (List UserId)
  | [] => .ok []
  | v :: rest => do .ok ((← liftDe (c.userId v)) :: (← decodeCreators rest))

def powerLevelCreators (v : RoomVersion) (create : Pdu) (createContent : RoomCreateContentFields) :
    Except Error (List UserId) :=
  if v.explicitlyPrivilegeRoomCreators then do
    .ok (create.sender :: (← decodeCreators c (createContent.additionalCreators.getD [])))
  else .ok []

/-- The rules for `m.room.power_levels`. -/
def powerLevelsCheck (v : RoomVersion) (ev : Pdu) (powerLevels : Option Pdu) (senderLevel : Int) (create : Pdu)
    (createContent : RoomCreateContentFields) : Except Error Bool :=
  if ev.kind = .roomPowerLevels then do
    let creators ← powerLevelCreators c v create createContent
    .ok ((checkPowerLevels c v ev powerLevels senderLevel creators).getD false)
  else .ok true

def redactionCheck (v : RoomVersion) (ev : Pdu) (powerLevels : Option Pdu) (senderLevel : Int) :
    Except Error Bool :=
  if v.extraRedactionChecks && ev.kind = .roomRedaction then do
    let redactLevel ← match powerLevels with
      | some pl => liftDe (deserializePowerLevelsContentRedact c pl.content v)
      | none => .ok 50
    .ok (checkRedaction c ev senderLevel redactLevel)
  else .ok true

def powerCheck (v : RoomVersion) (ev : Pdu) (powerLevels : Option Pdu) (create : Pdu)
    (createContent : RoomCreateContentFields) : Except Error Bool := do
  let senderLevel ← senderPowerLevel c v powerLevels create createContent ev.sender
  if ev.kind = .roomThirdPartyInvite then
    let inviteLevel ← match powerLevels with
      | some pl => liftDe (deserializePowerLevelsContentInvite pl.content v)
      | none => .ok 0
    .ok (!(senderLevel < inviteLevel))
  else if !canSendEvent c ev powerLevels senderLevel then .ok false
  else if !(← powerLevelsCheck c v ev powerLevels senderLevel create createContent) then .ok false
  else redactionCheck c v ev powerLevels senderLevel

/-- Authenticates an event against the state `fetchState` reads. -/
def authCheck (v : RoomVersion) (ev : Pdu) (currentThirdPartyInvite : Option Pdu)
    (fetchState : EventType → StateKey → Option Pdu) (create : Pdu) : Except Error Bool :=
  if ev.kind = .roomCreate then createCheck c v ev
  else do
    let powerLevels := fetchState .roomPowerLevels ""
    let createContent ← liftDe (RoomCreateContentFields.parse create.content)
    if roomRejects c v ev powerLevels create createContent then .ok false
    else if v.specialCaseAliasesAuth && ev.kind = .roomAliases then
      .ok (ev.stateKey = some (c.userServerName ev.sender))
    else if ev.kind = .roomMember then memberCheck c v ev currentThirdPartyInvite fetchState create
    else if !(← senderIsJoined c v (fetchState .roomMember ev.sender) create) then .ok false
    else powerCheck c v ev powerLevels create createContent

end

end Congruent
