import Congruent.StateAtEvent
import Congruent.StateCache
import Congruent.Zoom

/-!
# Appending an event, step by step

What `upgrade_outlier_to_timeline_pdu` does after its checks is a sequence of writes
to several stores (`append.rs`, `state/mod.rs`, `state_cache/update.rs`). Each of them
that may return an error may do so in any call, and leaves the writes before it made.
-/

namespace Congruent

open H

/-- Which of the updates of the membership tables a step belongs to. -/
inductive CachePass where
  | beforeAppend
  | withRoot
  /-- `force_state`. -/
  | forced
  deriving DecidableEq

/-- The steps that may return an error. -/
inductive Fallible where
  | publishNodes
  /-- Reading the two roots of a cache update. -/
  | stateDelta (pass : CachePass)
  /-- `update_membership`, before it writes; a blocked invite among them. -/
  | membership (pass : CachePass) (u : UserId)
  | shortRoomId
  | forwardExtremities
  | nextCount
  /-- `store.publish` of an event's root. -/
  | publish
  | roomState
  | readReceipt
  /-- What `append_pdu` does for clients and appservices at its end. -/
  | effects
  | eventRoot
  | clearRejection
  | adminCommand
  | markSoftFailed
  deriving DecidableEq

def Fallible.error : Fallible → HErr
  | shortRoomId => .database "Room does not exist"
  | forwardExtremities => .database "Failed to read verdicts for forward extremity"
  | _ => .database "storage error"

/-- What the rest of the server does during a call. -/
structure Env where
  fails : Fallible → Bool
  summaryStripped : Pdu → List StrippedEvent
  /-- Whether a user who leaves also forgets the room. -/
  forgets : UserId → Bool

/-- The stores of an append: the event tables, the rows of the timeline, and the
membership tables. -/
structure Ledger where
  server : Server
  roomPducountEventid : RoomId → Nat → Option EventId
  /-- `roomid_topologicalorder_pducount`, by depth and position. -/
  topologicalorder : RoomId → Nat → Nat → Option EventId
  /-- `roomid_timestamp_pducount`, by time and position. -/
  timestamps : RoomId → Nat → Nat → Bool
  cache : StateCache

/-- A program over the stores of an append. -/
abbrev L (A : Type) := Call HErr Ledger A

namespace Ledger

def serverPart : Lens Ledger Server where
  get := server
  put s t := { t with server := s }
  get_put _ _ := rfl
  put_get _ := rfl
  put_put _ _ _ := rfl

def cachePart : Lens Ledger StateCache where
  get := cache
  put c t := { t with cache := c }
  get_put _ _ := rfl
  put_get _ := rfl
  put_put _ _ _ := rfl

def onServer {A : Type} (p : H A) : L A := Call.zoom serverPart p

def onCache {A : Type} (p : StateCache.Op A) : L A := Call.ofProg (p.zoom cachePart)

def fallible (env : Env) (f : Fallible) : L Unit := Call.refuse (env.fails f) f.error

end Ledger

section
variable (plat : Platform)

/-! ## The membership tables -/

/-- The membership a member event gives; content that does not decode counts as a
leave. -/
def cachedMembership (pdu : Pdu) : MembershipState :=
  match plat.codec.roomMember pdu.content with
  | .error _ | .ok (.custom _) => .leave
  | .ok membership => membership

def hasCreate (state : List StrippedEvent) : Bool := state.any fun e => e.type == some "m.room.create"

/-- The stripped state of a knock: what was recorded before, when only that has the
create event. -/
def knockState (summary : List StrippedEvent) (previous : Option (List StrippedEvent)) : List StrippedEvent :=
  match previous with
  | some state => if !hasCreate summary && hasCreate state then state else summary
  | none => summary

def memberUser (pdu : Pdu) : Option UserId :=
  if pdu.kind = .roomMember then pdu.stateKey.bind plat.codec.parseUserId else none

/-- What `update_membership` records. An invite never undoes a join, and a knock is
recorded with the room's create event only. -/
def recordMembership (env : Env) (room : RoomId) (u : UserId) (pdu : Pdu) : StateCache.Op Unit :=
  match cachedMembership plat pdu with
  | .join => StateCache.markAsJoined u room
  | .invite => do
    if ← .read fun c => c.userroomidJoined u room then pure ()
    else do
      let _ ← StateCache.markAsInvited u room false pdu.sender (some (env.summaryStripped pdu)) none
      pure ()
  | .knock => do
    let previous ← .read fun c => c.userroomidKnockedstate u room
    let state := knockState (env.summaryStripped pdu) previous
    if hasCreate state then StateCache.markAsKnocked u room (some state) else pure ()
  | .leave | .ban | .custom _ =>
    StateCache.markAsLeft u room (some ⟨pdu.eventId, pdu.originServerTs⟩) (env.forgets u)

/-- The entries whose events the caches are updated for. -/
def tracked (kind : EventType) : Bool :=
  kind = .roomMember || kind = .other "m.room.encryption" || kind = .other "m.space.child"

/-- The events of the entries that a root has and another has not (`isolate_delta`). -/
def Root.added (old new : Root) : List EventId :=
  (new.entries.filter fun e => tracked e.1.1 && old.lookup e.1 ≠ some e.2).map (·.2)

namespace Ledger

def updateMembership (env : Env) (pass : CachePass) (room : RoomId) (u : UserId) (pdu : Pdu) : L Unit := do
  fallible env (.membership pass u)
  onCache (recordMembership plat env room u pdu)

/-- Processes one added event. -/
def applyAdded (env : Env) (pass : CachePass) (room : RoomId) (_ : Unit) (pdu : Pdu) : L Unit :=
  match memberUser plat pdu with
  | some u => updateMembership plat env pass room u pdu
  | none => pure ()

def usersToMarkLeft (newRoot : Root) (removed : List Pdu) : List UserId :=
  (removed.filterMap (memberUser plat)).filter fun u => (newRoot.lookup (.roomMember, u)).isNone

def updateCachesForStateDelta (env : Env) (pass : CachePass) (room : RoomId) (newRoot : Root)
    (removed added : List Pdu) : L Unit := do
  (usersToMarkLeft plat newRoot removed).foldlM
    (fun _ u => onCache (StateCache.markAsLeft u room none (env.forgets u))) ()
  added.foldlM (applyAdded plat env pass room) ()

/-- Events that cannot be read are passed over. -/
def updateCachesForStateDeltaBetween (env : Env) (pass : CachePass) (room : RoomId) (fromRoot : Option Root)
    (toRoot : Root) : L Unit := do
  fallible env (.stateDelta pass)
  let added ← onServer (read fun s =>
    ((fromRoot.getD ∅).added toRoot).filterMap (s.getPduInRoom plat room))
  let removed ← onServer (read fun s =>
    (toRoot.added (fromRoot.getD ∅)).filterMap (s.getPduInRoom plat room))
  updateCachesForStateDelta plat env pass room toRoot removed added

end Ledger

/-! ## The writes of an append -/

namespace Server

def markAsReferenced (s : Server) (room : RoomId) (ids : List EventId) : Server :=
  { s with referenced := Function.update s.referenced room fun x => ids.contains x || s.referenced room x }

def storeTips (s : Server) (plat : Platform) (room : RoomId) (leaves : List EventId) (trusted : EventId) : Server :=
  { s with
    pduleaves := Function.update s.pduleaves room (s.setForwardExtremities plat room leaves trusted)
    log := .tips room (s.pduleaves room) ((s.pduleaves room).filter fun x => !s.mayBeTip trusted x) :: s.log }

def storePdu (s : Server) (room : RoomId) (id : EventId) (json : Object) : Server :=
  { s with
    eventidPdu := Function.update s.eventidPdu id (some json)
    eventidMetadata := Function.update s.eventidMetadata id (some ⟨false, some s.count⟩)
    count := s.count + 1
    log := .stored room id json :: s.log }

def storeRoot (s : Server) (room : RoomId) (id : EventId) (isState : Bool) (root : Root) : Server :=
  { s with
    eventRoot := Function.update s.eventRoot id (some root)
    roomRoot := if isState then Function.update s.roomRoot room (some root) else s.roomRoot }

def storeRoomRoot (s : Server) (room : RoomId) (root : Root) : Server :=
  { s with roomRoot := Function.update s.roomRoot room (some root) }

def clearOutlierFlag (s : Server) (id : EventId) : Server :=
  { s with
    eventidMetadata := Function.update s.eventidMetadata id
      ((s.eventidMetadata id).map fun m => { m with isOutlier := false }) }

def markEventSoftFailed (s : Server) (id : EventId) : Server :=
  { s with softFailed := Function.update s.softFailed id true }

def noteAppended (s : Server) (a : Append) (json : Object) : Server :=
  { s with log := .appended a.call a.room a.pdu.eventId a.pdu.prevEvents json a.isTimelineEvent :: s.log }

end Server

namespace Ledger

/-- The time an event is filed under. -/
def timestampOf (json : Object) : Option Nat :=
  match (json.get "origin_server_ts").bind Value.asI64 with
  | some ts => if 0 ≤ ts ∧ ts ≤ 9007199254740991 then some ts.toNat else none
  | none => none

/-- The batch of an event's rows. Rows at another position are removed. -/
def insertRows (t : Ledger) (room : RoomId) (pdu : Pdu) (json : Object) : Ledger :=
  let old := t.server.getPduId pdu.eventId
  let n := t.server.count
  { t with
    server := t.server.storePdu room pdu.eventId json
    roomPducountEventid := fun r c => if r = room ∧ c = n then some pdu.eventId
      else if r = room ∧ old = some c then none else t.roomPducountEventid r c
    topologicalorder := fun r depth c => if r = room ∧ depth = pdu.depth ∧ c = n then some pdu.eventId
      else if r = room ∧ old = some c then none else t.topologicalorder r depth c
    timestamps := fun r ts c => (r = room ∧ timestampOf json = some ts ∧ c = n) || t.timestamps r ts c }

/-- The position of an event that is in the timeline already. -/
def existingPdu (t : Ledger) (room : RoomId) (id : EventId) : Option Nat :=
  (t.server.getPduId id).filter fun n => (t.roomPducountEventid room n).isSome

def insertPdu (env : Env) (room : RoomId) (pdu : Pdu) (json : Object) : L Nat := do
  match ← Call.read fun t => t.existingPdu room pdu.eventId with
  | some position => pure position
  | none => do
    fallible env .nextCount
    Call.act fun t => (.ok t.server.count, t.insertRows room pdu json)

def setEventStateWithRoot (env : Env) (room : RoomId) (pdu : Pdu) (root : Root)
    (prevRoot : Option Root) : L Unit := do
  fallible env .publish
  onServer (Call.modify fun s => s.storeRoot room pdu.eventId pdu.stateKey.isSome root)
  if pdu.stateKey.isSome && prevRoot.isSome then
    updateCachesForStateDeltaBetween plat env .withRoot room prevRoot root
  else pure ()

def advanceState (env : Env) (a : Append) : L Unit :=
  if a.advanceCurrentState && a.pdu.stateKey.isNone then do
    fallible env .roomState
    onServer (Call.modify fun s => s.storeRoomRoot a.room a.root)
  else pure ()

def appendPdu (env : Env) (a : Append) (leaves : List EventId) : L Nat := do
  fallible env .shortRoomId
  let prev ← onServer (read fun s => s.prevState plat a.room a.pdu a.prevRoot)
  Call.refuse (prev.any fun p => p.content.asObject.isNone) (.database "Failed to convert prev_state content")
  onServer (Call.modify fun s => s.markAsReferenced a.room a.pdu.prevEvents)
  fallible env .forwardExtremities
  onServer (Call.modify fun s => s.storeTips plat a.room leaves a.pdu.eventId)
  let position ← insertPdu env a.room a.pdu (withPrevState a.pdu prev a.json)
  setEventStateWithRoot plat env a.room a.pdu a.root a.prevRoot
  advanceState env a
  fallible env .readReceipt
  fallible env .effects
  onServer (Call.modify fun s => s.noteAppended a (withPrevState a.pdu prev a.json))
  pure position

def storeSoftFailed (env : Env) (a : Append) : L Unit := do
  fallible env .eventRoot
  onServer (Call.modify fun s => s.storeRoot a.room a.pdu.eventId false a.root)
  fallible env .clearRejection
  onServer (Call.modify fun s => s.setRejection a.pdu.eventId none)

def appendIncomingPdu (env : Env) (a : Append) (leaves : List EventId) (softFail : Bool) : L (Option Nat) :=
  if softFail then do
    storeSoftFailed env a
    pure none
  else do
    let position ← appendPdu plat env a leaves
    onServer (Call.modify fun s => s.clearOutlierFlag a.pdu.eventId)
    fallible env .clearRejection
    onServer (Call.modify fun s => s.setRejection a.pdu.eventId none)
    fallible env .adminCommand
    pure (some position)

def forceState (env : Env) (room : RoomId) (root : Root) : L Unit := do
  let current ← onServer (read fun s => s.roomRoot room)
  updateCachesForStateDeltaBetween plat env .forced room current root
  fallible env .roomState
  onServer (Call.modify fun s => s.storeRoomRoot room root)

end Ledger

/-! ## The upgrade -/

/-- What is known of an event that passed against the state at it. -/
structure Judged where
  v : RoomVersionId
  version : RoomVersion
  isPartial : Bool
  claimed : List Pdu
  stateAt : Root
  recovered : Bool

/-- What was decided about an event under the room's lock. -/
structure Settled where
  softFail : Bool
  prevRoot : Option Root
  root : Root
  leaves : List EventId

namespace Delivery

def judge (room : RoomId) (d : Delivery) : H (Nat ⊕ Judged) := do
  match ← read fun s => s.getPduId d.id with
  | some position => pure (.inl position)
  | none =>
    if ← read fun s => s.softFailed d.id then throw (.request "Event has been soft failed")
    else do
      let v ← lift (getRoomVersionId plat d.create)
      let (stateAt, wasRecovered) ← stateAtIncoming plat d.n d.origin d.create room v d.pdu d.anchor
      let version ← lift (toRoomVersion v)
      let isPartial ← partialServer plat room
      let claimed ← read fun s => s.partialAuthEvents plat isPartial d.pdu
      let passes ← Call.ask fun s => runAuthCheck plat version d.pdu d.create
        (withClaimed (claimedFirst plat isPartial d.pdu) claimed (s.stateFetch plat stateAt))
      if !passes then do
        markEventRejected plat d.id .authCheckFailed
        throw (.request "Event has failed auth check with state at the event.")
      else pure (.inr ⟨v, version, isPartial, claimed, stateAt, wasRecovered || d.predecessorsRecovered⟩)

/-- The decision, and the tips the room would have. -/
def settle (room : RoomId) (d : Delivery) (j : Judged) : H (Nat ⊕ Settled) := do
  match ← read fun s => s.getPduId d.id with
  | some position => pure (.inl position)
  | none => do
    let failed ← softFailCheck plat room j.v j.version d.pdu d.create j.isPartial j.claimed d.isTimelineEvent
    let (prevRoot, root) ← newRoomState plat room j.v d.pdu j.stateAt d.isTimelineEvent j.recovered j.isPartial
    let softFail ← laterSoftFail plat room d.pdu failed
    let leaves ← read fun s => calculateForwardExtremities (s.pduleaves room) d.id d.prevEvents softFail
      (s.referenced room) d.isTimelineEvent
    pure (.inr ⟨softFail, prevRoot, root, leaves⟩)

def toAppend (room : RoomId) (d : Delivery) (recovered : Bool) (st : Settled) : Append :=
  ⟨d.call, room, d.pdu, d.json, d.isTimelineEvent, st.root, st.prevRoot,
    d.isTimelineEvent && (d.pdu.stateKey.isSome || recovered)⟩

end Delivery

namespace Ledger

def prepareCaches (env : Env) (room : RoomId) (d : Delivery) (recovered : Bool) (st : Settled) : L Unit :=
  if (d.pdu.stateKey.isSome || recovered) && st.prevRoot.isSome then do
    fallible env .publishNodes
    updateCachesForStateDeltaBetween plat env .beforeAppend room st.prevRoot st.root
  else pure ()

/-- An event that passed every check. -/
def accept (env : Env) (room : RoomId) (d : Delivery) (recovered : Bool) (st : Settled) : L
    (Option Nat × Bool) := do
  prepareCaches plat env room d recovered st
  let position ← appendIncomingPdu plat env (d.toAppend room recovered st) st.leaves false
  pure (position, recovered)

def softFail (env : Env) (room : RoomId) (d : Delivery) (recovered : Bool) (st : Settled) :
    L (Option Nat × Bool) := do
  let _ ← appendIncomingPdu plat env (d.toAppend room recovered st) st.leaves true
  fallible env .markSoftFailed
  onServer (Call.modify fun s => s.markEventSoftFailed d.id)
  throw (.request "Event has been soft failed")

def commit (env : Env) (room : RoomId) (d : Delivery) (recovered : Bool) (st : Settled) : L (Option Nat × Bool) :=
  if st.softFail then softFail plat env room d recovered st else accept plat env room d recovered st

/-- The room's lock, which only takes interleavings away, is left out. -/
def upgradeOutlierToTimelinePdu (env : Env) (room : RoomId) (d : Delivery) : L (Option Nat × Bool) := do
  match ← onServer (d.judge plat room) with
  | .inl position => pure (some position, false)
  | .inr j =>
    match ← onServer (d.settle plat room j) with
    | .inl position => pure (some position, false)
    | .inr st => commit plat env room d j.recovered st

end Ledger

end

/-- Nothing fails. -/
def Env.steady : Env := ⟨fun _ => false, fun _ => [], fun _ => false⟩

def Env.failing (f : Fallible) : Env := { Env.steady with fails := fun g => decide (g = f) }

def Ledger.plain : Ledger where
  server := .withOutliers
  roomPducountEventid room n := if room = "!r:a" then List.lookup n [(0, "$c"), (1, "$j")] else none
  topologicalorder room depth n := if room = "!r:a" ∧ depth = 0 then List.lookup n [(0, "$c"), (1, "$j")] else none
  timestamps _ _ _ := false
  cache := ({} : StateCache).commitJoined "@u:b" "!r:a"

end Congruent
