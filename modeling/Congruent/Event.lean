import Congruent.RoomVersion

/-!
# Events

Identifiers, event types, the typed contents the server reads, the third-party
codec that decodes them, and the events (`pdu.rs`) of a room.
-/

namespace Congruent

abbrev EventId := String
abbrev RoomId := String
abbrev UserId := String
abbrev ServerName := String
abbrev StateKey := String

/-- Event types: the ones the server names, and all others by their string. -/
inductive EventType where
  | roomCreate
  | roomMember
  | roomPowerLevels
  | roomJoinRules
  | roomThirdPartyInvite
  | roomAliases
  | roomRedaction
  | roomServerAcl
  | roomPolicy
  | other (name : String)
  deriving DecidableEq, Repr

def EventType.asStr : EventType → String
  | roomCreate => "m.room.create"
  | roomMember => "m.room.member"
  | roomPowerLevels => "m.room.power_levels"
  | roomJoinRules => "m.room.join_rules"
  | roomThirdPartyInvite => "m.room.third_party_invite"
  | roomAliases => "m.room.aliases"
  | roomRedaction => "m.room.redaction"
  | roomServerAcl => "m.room.server_acl"
  | roomPolicy => "m.room.policy"
  | other name => name

abbrev TypeStateKey := EventType × StateKey

/-- The order of state keys. -/
def TypeStateKey.le (a b : TypeStateKey) : Prop :=
  a.1.asStr < b.1.asStr ∨ (a.1.asStr = b.1.asStr ∧ a.2 ≤ b.2)

instance : DecidableRel TypeStateKey.le := fun a b =>
  inferInstanceAs (Decidable (a.1.asStr < b.1.asStr ∨ (a.1.asStr = b.1.asStr ∧ a.2 ≤ b.2)))

inductive MembershipState where
  | ban
  | invite
  | join
  | knock
  | leave
  | custom (name : String)
  deriving DecidableEq, Repr

/-- Join rules; the allow lists of the restricted rules are not read here. -/
inductive JoinRule where
  | invite
  | knock
  | «private»
  | «public»
  | restricted
  | knockRestricted
  | custom (name : String)
  deriving DecidableEq, Repr

structure SignedContent where
  mxid : UserId
  token : String

structure ThirdPartyInvite where
  signed : SignedContent

structure RoomCreateEventContent where
  creator : Option UserId
  roomVersion : RoomVersionId
  additionalCreators : Option (List UserId)

structure RoomJoinRulesEventContent where
  joinRule : JoinRule

structure RoomThirdPartyInviteEventContent where
  publicKeys : Option (List Value)
  publicKey : Option String

structure RoomPowerLevelsEventContent where
  ban : Int
  events : BTreeMap EventType Int
  eventsDefault : Int
  invite : Int
  kick : Int
  redact : Int
  stateDefault : Int
  users : BTreeMap UserId Int
  usersDefault : Int
  /-- `notifications.room`, the only notification level there is. -/
  notificationsRoom : Int

/-- The functions of the third-party codec library the server calls. -/
structure Codec where
  membershipState : Value → Except DeError MembershipState
  userId : Value → Except DeError UserId
  roomVersionId : Value → Except DeError RoomVersionId
  thirdPartyInvite : Value → Except DeError ThirdPartyInvite
  int : Value → Except DeError Int
  usersMap : Value → Except DeError (BTreeMap UserId Int)
  eventsMap : Value → Except DeError (BTreeMap EventType Int)
  roomCreate : Value → Except DeError RoomCreateEventContent
  /-- The membership of a `RoomMemberEventContent`. -/
  roomMember : Value → Except DeError MembershipState
  roomPowerLevels : Value → Except DeError RoomPowerLevelsEventContent
  roomJoinRules : Value → Except DeError RoomJoinRulesEventContent
  roomThirdPartyInvite : Value → Except DeError RoomThirdPartyInviteEventContent
  /-- `to_value` of a power-levels content. -/
  powerLevelsToValue : RoomPowerLevelsEventContent → Value
  /-- `RoomPowerLevelsEventContent::default`. -/
  powerLevelsDefault : RoomPowerLevelsEventContent
  defaultPowerLevel : Int
  parseUserId : String → Option UserId
  parseEventId : String → Option EventId
  userServerName : UserId → ServerName
  roomServerName : RoomId → Option ServerName
  eventServerName : EventId → Option ServerName
  /-- `OwnedRoomId::new_v2`: the room id made of a reference hash. -/
  roomIdV2 : String → Option RoomId
  /-- `Base64::parse` followed by `encode`. -/
  base64 : String → Option String
  /-- `DeError::to_string`. -/
  errorText : DeError → String

structure Pdu where
  eventId : EventId
  roomId : Option RoomId
  sender : UserId
  originServerTs : Nat
  kind : EventType
  content : Value
  stateKey : Option StateKey
  prevEvents : List EventId
  depth : Nat
  authEvents : List EventId
  redacts : Option EventId
  /-- Whether the event was marked rejected when it was fetched. -/
  rejected : Bool

/-- `strip_prefix` with one character. -/
def stripChar (ch : Char) (s : String) : Option String :=
  match s.toList with
  | x :: xs => if x = ch then some (String.ofList xs) else none
  | [] => none

def Pdu.roomIdOrHash (c : Codec) (ev : Pdu) : Option RoomId :=
  match ev.roomId with
  | some r => some r
  | none => if ev.kind = .roomCreate then (stripChar '$' ev.eventId).bind c.roomIdV2 else none

/-! ## A codec for concrete runs -/

namespace Codec

def readMembership : Value → Except DeError MembershipState
  | .str s => .ok (match s with
    | "ban" => .ban
    | "invite" => .invite
    | "join" => .join
    | "knock" => .knock
    | "leave" => .leave
    | s => .custom s)
  | _ => .error (.expected "string")

def readUserId : Value → Except DeError UserId
  | .str s => if (stripChar '@' s).isSome then .ok s else .error (.expected "user id")
  | _ => .error (.expected "string")

def readInt : Value → Except DeError Int
  | .num n => .ok n
  | _ => .error (.expected "integer")

/-- The entries of an object, decoded one by one. -/
def readMap {K : Type} [DecidableEq K] (key : String → Except DeError K) : List (String × Value) →
    Except DeError (BTreeMap K Int)
  | [] => .ok ∅
  | (k, v) :: rest => do
    let k ← key k
    let n ← readInt v
    let m ← readMap key rest
    .ok (m.insert k n)

def readObjectMap {K : Type} [DecidableEq K] (key : String → Except DeError K) (v : Value) :
    Except DeError (BTreeMap K Int) :=
  match v.asObject with
  | some o => readMap key o
  | none => .error (.expected "object")

def readEventType : String → EventType
  | "m.room.create" => .roomCreate
  | "m.room.member" => .roomMember
  | "m.room.power_levels" => .roomPowerLevels
  | "m.room.join_rules" => .roomJoinRules
  | "m.room.third_party_invite" => .roomThirdPartyInvite
  | "m.room.aliases" => .roomAliases
  | "m.room.redaction" => .roomRedaction
  | "m.room.server_acl" => .roomServerAcl
  | "m.room.policy" => .roomPolicy
  | s => .other s

def readLevel (o : Value) (key : String) (default : Int) : Except DeError Int :=
  match o.get key with
  | some v => readInt v
  | none => .ok default

def readField {α : Type} (o : Value) (key : String) (default : α) (read : Value → Except DeError α) :
    Except DeError α :=
  match o.get key with
  | some v => read v
  | none => .ok default

def readPowerLevels (o : Value) : Except DeError RoomPowerLevelsEventContent := do
  let o ← o.object
  let notifications ← readField o "notifications" (.obj []) .ok
  .ok { ban := ← readLevel o "ban" 50
        events := ← readField o "events" ∅ (readObjectMap fun s => .ok (readEventType s))
        eventsDefault := ← readLevel o "events_default" 0
        invite := ← readLevel o "invite" 0
        kick := ← readLevel o "kick" 50
        redact := ← readLevel o "redact" 50
        stateDefault := ← readLevel o "state_default" 50
        users := ← readField o "users" ∅ (readObjectMap fun s => readUserId (.str s))
        usersDefault := ← readLevel o "users_default" 0
        notificationsRoom := ← readLevel notifications "room" 50 }

def readJoinRule : Value → Except DeError JoinRule
  | .str s => .ok (match s with
    | "invite" => .invite
    | "knock" => .knock
    | "private" => .private
    | "public" => .public
    | "restricted" => .restricted
    | "knock_restricted" => .knockRestricted
    | s => .custom s)
  | _ => .error (.expected "string")

def readVersion : Value → Except DeError RoomVersionId
  | .str s => .ok (match s with
    | "1" => .V1
    | "2" => .V2
    | "3" => .V3
    | "4" => .V4
    | "5" => .V5
    | "6" => .V6
    | "7" => .V7
    | "8" => .V8
    | "9" => .V9
    | "10" => .V10
    | "11" => .V11
    | "12" => .V12
    | s => .custom s)
  | _ => .error (.expected "string")

def readOptional {α : Type} (o : Value) (key : String) (read : Value → Except DeError α) :
    Except DeError (Option α) :=
  match o.optional key with
  | some v => do .ok (some (← read v))
  | none => .ok none

def readUserIds (v : Value) : Except DeError (List UserId) :=
  match v.asArray with
  | some xs => xs.mapM readUserId
  | none => .error (.expected "array")

/-- The part of an identifier after its first colon. -/
def serverPart (s : String) : Option ServerName :=
  match s.toList.dropWhile (· ≠ ':') with
  | _ :: rest => some (String.ofList rest)
  | [] => none

/-- The codec the concrete runs of this development use: fields as the Matrix
specification reads them, for levels within `i64`. -/
def plain : Codec where
  membershipState := readMembership
  userId := readUserId
  roomVersionId := readVersion
  thirdPartyInvite v := do
    let signed ← v.required "signed"
    let mxid ← readUserId (← signed.required "mxid")
    match (← signed.required "token").asStr with
    | some token => .ok ⟨⟨mxid, token⟩⟩
    | none => .error (.expected "string")
  int := readInt
  usersMap := readObjectMap fun s => readUserId (.str s)
  eventsMap := readObjectMap fun s => .ok (readEventType s)
  roomCreate v := do
    let o ← v.object
    let creator ← readOptional o "creator" readUserId
    let version ← readOptional o "room_version" readVersion
    let additional ← readOptional o "additional_creators" readUserIds
    .ok ⟨creator, version.getD .V1, additional⟩
  roomMember v := do readMembership (← (← v.object).required "membership")
  roomPowerLevels := readPowerLevels
  roomJoinRules v := do .ok ⟨← readJoinRule (← (← v.object).required "join_rule")⟩
  roomThirdPartyInvite v := do
    let o ← v.object
    .ok ⟨(o.get "public_keys").bind Value.asArray, (o.get "public_key").bind Value.asStr⟩
  powerLevelsToValue pl := .obj
    [("users_default", .num pl.usersDefault), ("events_default", .num pl.eventsDefault),
      ("state_default", .num pl.stateDefault), ("ban", .num pl.ban), ("redact", .num pl.redact),
      ("kick", .num pl.kick), ("invite", .num pl.invite)]
  powerLevelsDefault := ⟨50, ∅, 0, 0, 50, 50, 50, ∅, 0, 50⟩
  defaultPowerLevel := 50
  parseUserId s := (readUserId (.str s)).toOption
  parseEventId s := if (stripChar '$' s).isSome then some s else none
  userServerName u := (serverPart u).getD ""
  roomServerName := serverPart
  eventServerName := serverPart
  roomIdV2 s := some ("!" ++ s)
  base64 := some
  errorText e := match e with
    | .expected what => "expected " ++ what
    | .custom message => message

end Codec

/-- A state event of the room `!r:a`. -/
def stateEvent (id : EventId) (sender : UserId) (kind : EventType) (stateKey : StateKey) (content : Object)
    (authEvents : List EventId) : Pdu :=
  { eventId := id, roomId := some "!r:a", sender := sender, originServerTs := 0, kind := kind
    content := .obj content, stateKey := some stateKey, prevEvents := [], depth := 0
    authEvents := authEvents, redacts := none, rejected := false }

end Congruent
