import Congruent.Call
import Congruent.StateRes

/-!
# The server's stores

What the event handlers read and write: the event tables (`outlier`, `timeline`,
`pdu_metadata`, `state`), what peers and the rest of the server answer, and the
third-party functions they call. A log of what was done stands beside the tables.
-/

namespace Congruent

/-! ## JSON of events -/

namespace Object

@[simp] theorem get_remove_ne (o : Object) {k k' : String} (h : k' ≠ k) : (o.remove k).get k' = o.get k' := by
  induction o with
  | nil => rfl
  | cons p o ih =>
    unfold remove get at *
    by_cases hp : p.1 = k
    · have hb : (k' == k) = false := by simpa using h
      rw [List.filter_cons_of_neg (by simpa using hp), ih, List.lookup_cons, hp, hb]
    · rw [List.filter_cons_of_pos (by simpa using hp), List.lookup_cons, List.lookup_cons, ih]

@[simp] theorem get_insert_ne (o : Object) {k k' : String} (v : Value) (h : k' ≠ k) :
    (o.insert k v).get k' = o.get k' := by
  have hb : (k' == k) = false := by simpa using h
  have hr := get_remove_ne o h
  unfold get at hr ⊢
  rw [insert, List.lookup_cons, hb, hr]

theorem remove_remove (o : Object) (k k' : String) : (o.remove k).remove k' = (o.remove k').remove k := by
  simp only [remove, List.filter_filter, Bool.and_comm]

@[simp] theorem remove_same (o : Object) (k : String) : (o.remove k).remove k = o.remove k := by
  simp [remove, List.filter_filter]

@[simp] theorem remove_insert (o : Object) (k : String) (v : Value) : (o.insert k v).remove k = o.remove k := by
  rw [insert]
  unfold remove
  rw [List.filter_cons_of_neg (by simp)]
  simp [List.filter_filter]

/-- An event without what the server itself attaches to it. -/
def strip (o : Object) : Object := (o.remove "unsigned").remove "event_id"

@[simp] theorem strip_insert_unsigned (o : Object) (v : Value) : (o.insert "unsigned" v).strip = o.strip := by
  simp [strip]

@[simp] theorem strip_insert_eventId (o : Object) (v : Value) : (o.insert "event_id" v).strip = o.strip := by
  rw [strip, remove_remove, remove_insert, remove_remove, strip]

@[simp] theorem strip_remove_unsigned (o : Object) : (o.remove "unsigned").strip = o.strip := by
  simp [strip]

@[simp] theorem get_strip (o : Object) {k : String} (h : k ≠ "unsigned") (h' : k ≠ "event_id") :
    o.strip.get k = o.get k := by
  rw [strip, get_remove_ne _ h', get_remove_ne _ h]

end Object

/-- Two events that differ at most in `unsigned` and `event_id`. -/
def SameBody (a b : Object) : Prop := a.strip = b.strip

/-- A peer's JSON text: an object, or `none` when it is not canonical JSON. -/
abbrev RawPdu := Option Object

/-! ## Verdicts -/

inductive RejectionCode where
  | signatureVerificationFailed
  | invalidPduFormat
  | dependsOnRejectedAuthEvent
  | prevEventsRejected
  | missingAuthEvent
  | duplicateAuthEventKey
  | missingCreateEvent
  | authCheckFailed
  | structurallyInvalidInGetMissingEvents
  | prevEventUnknownStateIdsFailed
  | stateResolutionFailedWithPrevsPresent
  | unknown
  deriving DecidableEq, Repr

/-- Whether a rejection says that something could not be resolved, rather than
that the event is invalid. -/
def RejectionCode.isRetryable : RejectionCode → Bool
  | missingAuthEvent | prevEventsRejected | structurallyInvalidInGetMissingEvents
  | prevEventUnknownStateIdsFailed | stateResolutionFailedWithPrevsPresent => true
  | _ => false

/-- Errors of the handlers. -/
inductive HErr where
  | request (msg : String)
  | missingAuthEvents (ids : List EventId)
  | database (msg : String)
  | badServerResponse (msg : String)
  deriving DecidableEq, Repr

/-- What a signature check found: signatures and content hash, or signatures only. -/
inductive Verified where
  | all
  | signatures
  deriving DecidableEq, Repr

/-- `RoomServerAclEventContent`, as far as it is read here. -/
structure RoomServerAclEventContent where
  allow : List String
  deny : List String

/-! ## Third-party functions and configuration -/

structure Platform where
  codec : Codec
  /-- The codec's decoder of events. -/
  decodePdu : Object → Except String Pdu
  /-- An event decoded and written out again (`to_canonical_object`). -/
  reencode : Object → Object
  referenceHash : RoomVersionId → Object → Except String String
  redact : RoomVersionId → Object → Except String Object
  textLength : Object → Nat
  parseRoomId : String → Option RoomId
  parseVersion : String → Option RoomVersionId
  /-- `rezzy::auth`, given the claimed auth events and the create event. -/
  rezzyAuthCheck : RoomVersionId → Pdu → (TypeStateKey → Option Pdu) → Option Pdu → Bool
  authTypesForEvent : RoomVersionId → Pdu → List TypeStateKey
  /-- `rezzy::resolve`, given the events it may look up. -/
  resolveStateMaps : RoomVersionId → List (StateMap EventId) → (EventId → Option Pdu) → StateMap EventId
  lookedUp : RoomVersionId → List (StateMap EventId) → (EventId → Option Pdu) → List EventId
  serverAcl : Value → Option RoomServerAclEventContent
  aclIsAllowed : RoomServerAclEventContent → ServerName → Bool
  serverName : ServerName
  bypassedSignatureEvents : List EventId
  maxForwardExtremities : Nat
  maxFetchPrevEvents : Nat

/-- What peers and the rest of the server answer at one moment. -/
structure World where
  /-- `verify_event_at`. -/
  verify : RoomVersionId → Object → Except String Verified
  /-- `GET /event`: the events of the response. -/
  getEvent : ServerName → EventId → Option (List RawPdu)
  /-- `GET /event_auth`. -/
  eventAuth : ServerName → RoomId → EventId → Option (List RawPdu)
  /-- `GET /state_ids`: the auth chain and the state. -/
  stateIds : ServerName → RoomId → EventId → Option (List EventId × List EventId)
  /-- `POST /get_missing_events`. -/
  missingEvents : ServerName → RoomId → EventId → Option (List RawPdu)
  /-- `/event_relationships`: the auth chain and the events. -/
  eventRelationships : ServerName → RoomId → EventId → Option (List RawPdu)
  /-- The servers asked, in order. -/
  serverPool : RoomId → ServerName → List ServerName
  federationServers : RoomId → ServerName → Option ServerName → List ServerName
  metaExists : RoomId → Bool
  isDisabled : RoomId → Bool
  serverInRoom : RoomId → Bool
  partialServer : RoomId → Bool
  roomVersion : RoomId → Option RoomVersionId
  invitedRoomVersion : RoomId → Option RoomVersionId
  inviteState : UserId → RoomId → Option (List Object)
  firstPduTs : RoomId → Option Nat
  /-- Whether an event is still backed off from. -/
  backingOff : EventId → Bool
  /-- Whether the policy server calls an event spam. -/
  policySpam : Pdu → RoomId → Bool
  userCanRedact : EventId → UserId → RoomId → Except HErr Bool
  running : Bool
  /-- The order in which the entries of a hash map, or of concurrent requests, come. -/
  order : Nat → List Nat

/-- Entries in a given order of their indices. -/
def reorder {A : Type} (xs : List A) (order : List Nat) : List A := order.filterMap fun i => xs[i]?

/-! ## The log -/

/-- Where an event's signatures are checked. -/
inductive Site where
  | handleOutlier
  | fetchState
  deriving DecidableEq, Repr

/-- How `handle_outlier_pdu` comes to its answer. -/
inductive How where
  /-- Its own checks all passed. -/
  | validated
  /-- They passed on a second copy from the sender's server. -/
  | refetched
  /-- They passed, signatures having been left to the caller. -/
  | skipped
  /-- The event is already known and not rejected. -/
  | known
  /-- The content hash failed, and known content is used instead. -/
  | reused
  deriving DecidableEq, Repr

/-- What was done, for the record. -/
inductive Mark where
  /-- A peer's event, under the id computed for it. -/
  | received (room : RoomId) (v : RoomVersionId) (id : EventId) (json : Object)
  /-- A peer's event, under the id it was asked for by. -/
  | answered (room : RoomId) (id : EventId) (json : Object)
  | readBack (room : RoomId) (id : EventId) (json : Object)
  /-- A stored event, decoded and written out again. -/
  | reencoded (room : RoomId) (id : EventId) (json : Object)
  | verified (site : Site) (room : RoomId) (v : RoomVersionId) (id : EventId) (json : Object) (result : Verified)
  /-- `handle_outlier_pdu` called with `value` answers `json`. -/
  | returned (how : How) (room : RoomId) (id : EventId) (value json : Object)
  /-- A delivery finds the event stored and rejected, and looks for what it depends on. -/
  | considered (call : Nat) (id : EventId) (authEvents prevEvents : List EventId)
  | authAccepted (call : Nat) (id : EventId)
  | prevInTimeline (call : Nat) (id : EventId)
  /-- The retry of a rejected outlier clears its rejection. -/
  | unrejected (call : Nat) (id : EventId)
  /-- A rejected outlier is taken up again. -/
  | retried (call : Nat) (room : RoomId) (id : EventId) (json : Object)
  /-- A stored predecessor that is not rejected for good. -/
  | eligible (id : EventId)
  /-- A stored predecessor is taken up. -/
  | promoted (room : RoomId) (id : EventId) (json : Object)
  | delivered (call : Nat) (origin : ServerName) (room : RoomId) (id : EventId) (value : Object)
  | notDisabled (call : Nat) (room : RoomId)
  | aclAllowed (call : Nat) (room : RoomId) (server : ServerName)
  | stored (room : RoomId) (id : EventId) (json : Object)
  /-- The tips of a room before an event is appended, and those that may no longer be tips. -/
  | tips (room : RoomId) (current flagged : List EventId)
  | appended (call : Nat) (room : RoomId) (id : EventId) (prevEvents : List EventId) (json : Object)
      (isTimelineEvent : Bool)

/-- A log, newest first, each of whose marks satisfies `P` with those before it. -/
inductive Always (P : Mark → List Mark → Prop) : List Mark → Prop
  | nil : Always P []
  | cons {m : Mark} {l : List Mark} (h : P m l) (hl : Always P l) : Always P (m :: l)

/-! ## The state -/

/-- The contents a root handle stands for. -/
abbrev Root := StateMap EventId

/-- Whether two root handles are equal: they are made of the contents. -/
def Root.same (a b : Root) : Bool :=
  a.keys.all (fun k => a.lookup k = b.lookup k) && b.keys.all fun k => a.lookup k = b.lookup k

/-- `EventMetadata`, as far as it is read here. -/
structure EventMetadata where
  isOutlier : Bool
  pduCount : Option Nat
  deriving DecidableEq

structure Server where
  eventidPdu : EventId → Option Object
  eventidMetadata : EventId → Option EventMetadata
  rejection : EventId → Option RejectionCode
  softFailed : EventId → Bool
  referenced : RoomId → EventId → Bool
  pduleaves : RoomId → List EventId
  eventRoot : EventId → Option Root
  roomRoot : RoomId → Option Root
  count : Nat
  world : Nat → World
  clock : Nat
  log : List Mark

namespace Server

/-- The position of an event in the timeline. -/
def getPduId (s : Server) (id : EventId) : Option Nat := (s.eventidMetadata id).bind (·.pduCount)

def pduExists (s : Server) (id : EventId) : Bool := (s.eventidPdu id).isSome

def isEventRejected (s : Server) (id : EventId) : Bool := (s.rejection id).isSome

def isEventAccepted (s : Server) (id : EventId) : Bool := (s.rejection id).isNone

def isEventPermanentlyRejected (s : Server) (id : EventId) : Bool :=
  (s.rejection id).any fun code => !code.isRetryable

def getPdu (s : Server) (plat : Platform) (id : EventId) : Option Pdu :=
  (s.eventidPdu id).bind fun json => (plat.decodePdu json).toOption.map fun pdu => { pdu with eventId := id }

def getPduInRoom (s : Server) (plat : Platform) (room : RoomId) (id : EventId) : Option Pdu :=
  (s.getPdu plat id).filter fun pdu => pdu.roomIdOrHash plat.codec = some room

def roomStateGet (s : Server) (plat : Platform) (room : RoomId) (kind : EventType) (stateKey : StateKey) :
    Option Pdu :=
  (s.roomRoot room).bind fun root => (root.lookup (kind, stateKey)).bind (s.getPduInRoom plat room)

/-- What the room's server ACL says of a server; a missing, unreadable or broken
ACL allows every server. -/
def aclCheck (s : Server) (plat : Platform) (server : ServerName) (room : RoomId) : Bool :=
  match (s.roomStateGet plat room .roomServerAcl "").bind fun pdu => plat.serverAcl pdu.content with
  | none => true
  | some acl => acl.allow.isEmpty || (acl.deny.contains "*" && acl.allow.contains
      "*") || plat.aclIsAllowed acl server

end Server

end Congruent
