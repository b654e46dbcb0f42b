import Congruent.BinarySearch
import Congruent.Event

/-!
# Reading power levels

The readers of `m.room.power_levels` contents (`state_res/power_levels.rs`).
-/

namespace Congruent

/-- How strictly power level values are read. -/
inductive Mode where
  | integer
  /-- Integers or integer strings. -/
  | legacy
  deriving DecidableEq, Repr

def RoomVersion.mode (v : RoomVersion) : Mode := if v.integerPowerLevels then .integer else .legacy

def level (value : Value) (mode : Mode) : Except DeError Int :=
  let read := match mode with
    | .integer => value.asI64
    | .legacy => value.asI64.or (value.asStr.bind parseInt)
  match read with
  | some n => .ok n
  | none => .error (.expected "power level")

/-- A power level that takes `default` when the field is absent. -/
def levelOr (content : Value) (key : String) (default : Int) (mode : Mode) : Except DeError Int :=
  match content.get key with
  | some value => level value mode
  | none => .ok default

section
variable (c : Codec)

/-- The entries of the `users` object in their order, each key a valid user id. -/
def readUsers : List (String × Value) → Except DeError (List (UserId × Int))
  | [] => .ok []
  | (user, value) :: rest =>
    match c.parseUserId user with
    | none => .error (.expected "user ID key")
    | some u => do
      let n ← level value .legacy
      .ok ((u, n) :: (← readUsers rest))

/-- The `users` map as a list sorted by user id; values are always read leniently. -/
def users (content : Value) : Except DeError (List (UserId × Int)) :=
  match content.get "users" with
  | none => .ok []
  | some users =>
    match users.asObject with
    | none => .error (.expected "power-level object")
    | some o => readUsers c (Object.iter o)

def mapOrDefault {K : Type} (decode : Value → Except DeError (BTreeMap K Int)) (content : Value)
    (key : String) : Except DeError (BTreeMap K Int) :=
  match content.get key with
  | some value => decode value
  | none => .ok ∅

def notificationsLevel (content : Value) (mode : Mode) : Except DeError Int :=
  match content.get "notifications" with
  | none => .ok c.defaultPowerLevel
  | some notifications =>
    if notifications.asObject.isNone then .error (.expected "notifications object")
    else levelOr notifications "room" c.defaultPowerLevel mode

def intRoomPowerLevels (content : Value) : Except DeError RoomPowerLevelsEventContent := do
  let content ← content.object
  let notifications ← notificationsLevel c content .integer
  let ban ← levelOr content "ban" c.defaultPowerLevel .integer
  let events ← mapOrDefault c.eventsMap content "events"
  let eventsDefault ← levelOr content "events_default" 0 .integer
  let invite ← levelOr content "invite" 0 .integer
  let kick ← levelOr content "kick" c.defaultPowerLevel .integer
  let redact ← levelOr content "redact" c.defaultPowerLevel .integer
  let stateDefault ← levelOr content "state_default" c.defaultPowerLevel .integer
  let users ← mapOrDefault c.usersMap content "users"
  let usersDefault ← levelOr content "users_default" 0 .integer
  .ok ⟨ban, events, eventsDefault, invite, kick, redact, stateDefault, users, usersDefault, notifications⟩

def deserializePowerLevels (content : Value) (v : RoomVersion) : Option RoomPowerLevelsEventContent :=
  if v.integerPowerLevels then (intRoomPowerLevels c content).toOption
  else (c.roomPowerLevels content).toOption

structure PowerLevelsContentFields where
  users : List (UserId × Int)
  usersDefault : Int

namespace PowerLevelsContentFields

def fromContent (content : Value) (mode : Mode) : Except DeError PowerLevelsContentFields := do
  .ok ⟨← Congruent.users c content, ← levelOr content "users_default" 0 mode⟩

/-- Reads the fields leniently. -/
def parse (content : Value) : Except DeError PowerLevelsContentFields := do
  fromContent c (← content.object) .legacy

def getUserPower (fields : PowerLevelsContentFields) (user : UserId) : Option Int :=
  match binarySearchBy (fun item => compare item.1 user) fields.users with
  | some idx => fields.users[idx]?.map (·.2)
  | none => none

end PowerLevelsContentFields

def deserializePowerLevelsContentFields (content : Value) (v : RoomVersion) :
    Except DeError PowerLevelsContentFields := do
  PowerLevelsContentFields.fromContent c (← content.object) v.mode

def deserializePowerLevelsContentInvite (content : Value) (v : RoomVersion) : Except DeError Int := do
  levelOr (← content.object) "invite" 0 v.mode

def deserializePowerLevelsContentRedact (content : Value) (v : RoomVersion) : Except DeError Int := do
  levelOr (← content.object) "redact" c.defaultPowerLevel v.mode

end

end Congruent
