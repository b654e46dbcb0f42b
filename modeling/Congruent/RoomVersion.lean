import Congruent.Json

/-!
# Room versions

The feature switches of each room version (`state_res/room_version.rs`), and
the errors of state resolution (`state_res/error.rs`).
-/

namespace Congruent

/-- Errors of state resolution. The last two are not values of the source: they
stand for an `unwrap` that unwinds and for a loop that does not end. -/
inductive Error where
  | codec (e : DeError)
  | unsupported (version : String)
  | notFound (what : String)
  | invalidPdu (why : String)
  | panic (why : String)
  | diverges
  deriving DecidableEq, Repr

/-- The state resolution algorithm of a room version. -/
inductive StateResolutionVersion where
  | V1
  | V2
  | V2_1
  | V2_1_1
  deriving DecidableEq, Repr

namespace StateResolutionVersion

def rank : StateResolutionVersion → Nat
  | V1 => 0
  | V2 => 1
  | V2_1 => 2
  | V2_1_1 => 3

/-- The derived order of the source's enum. -/
instance : LE StateResolutionVersion := ⟨fun a b => a.rank ≤ b.rank⟩

instance (a b : StateResolutionVersion) : Decidable (a ≤ b) := inferInstanceAs (Decidable (a.rank ≤ b.rank))

end StateResolutionVersion

inductive EventFormatVersion where
  | V1
  | V2
  | V3
  deriving DecidableEq, Repr

inductive RoomVersionId where
  | V1 | V2 | V3 | V4 | V5 | V6 | V7 | V8 | V9 | V10 | V11 | V12
  | custom (name : String)
  deriving DecidableEq, Repr

structure RoomVersion where
  eventFormat : EventFormatVersion
  stateRes : StateResolutionVersion
  enforceKeyValidity : Bool
  /-- `m.room.aliases` had special auth rules before room version 6. -/
  specialCaseAliasesAuth : Bool
  strictCanonicaljson : Bool
  /-- Verify the notifications key while checking `m.room.power_levels`. -/
  limitNotificationsPowerLevels : Bool
  extraRedactionChecks : Bool
  allowKnocking : Bool
  restrictedJoinRules : Bool
  knockRestrictedJoinRule : Bool
  integerPowerLevels : Bool
  useRoomCreateSender : Bool
  /-- Room creators always have infinite power levels. -/
  explicitlyPrivilegeRoomCreators : Bool
  /-- The id of the create event is the room id. -/
  roomIdsAsHashes : Bool
  deriving DecidableEq, Repr

namespace RoomVersion

def V1 : RoomVersion where
  eventFormat := .V1
  stateRes := .V1
  enforceKeyValidity := false
  specialCaseAliasesAuth := true
  strictCanonicaljson := false
  limitNotificationsPowerLevels := false
  extraRedactionChecks := true
  allowKnocking := false
  restrictedJoinRules := false
  knockRestrictedJoinRule := false
  integerPowerLevels := false
  useRoomCreateSender := false
  explicitlyPrivilegeRoomCreators := false
  roomIdsAsHashes := false

def V2 : RoomVersion := { V1 with stateRes := .V2 }
def V3 : RoomVersion := { V2 with eventFormat := .V2, extraRedactionChecks := false }
def V4 : RoomVersion := { V3 with eventFormat := .V3 }
def V5 : RoomVersion := { V4 with enforceKeyValidity := true }
def V6 : RoomVersion := { V5 with
  specialCaseAliasesAuth := false, strictCanonicaljson := true, limitNotificationsPowerLevels := true }
def V7 : RoomVersion := { V6 with allowKnocking := true }
def V8 : RoomVersion := { V7 with restrictedJoinRules := true }
def V9 : RoomVersion := V8
def V10 : RoomVersion := { V9 with knockRestrictedJoinRule := true, integerPowerLevels := true }
def V11 : RoomVersion := { V10 with useRoomCreateSender := true }
def V12 : RoomVersion := { V11 with
  stateRes := .V2_1, explicitlyPrivilegeRoomCreators := true, roomIdsAsHashes := true }
def V12_1 : RoomVersion := { V12 with stateRes := .V2_1_1 }

def new : RoomVersionId → Except Error RoomVersion
  | .V1 => .ok V1
  | .V2 => .ok V2
  | .V3 => .ok V3
  | .V4 => .ok V4
  | .V5 => .ok V5
  | .V6 => .ok V6
  | .V7 => .ok V7
  | .V8 => .ok V8
  | .V9 => .ok V9
  | .V10 => .ok V10
  | .V11 => .ok V11
  | .V12 => .ok V12
  | .custom name =>
    if name = "12.1" then .ok V12_1
    else if name = "org.matrix.msc3389.10" then .ok V10
    else if name = "org.matrix.msc4311.10" then .ok V10
    else .error (.unsupported ("found version `" ++ name ++ "`"))

end RoomVersion

end Congruent
