import Congruent.Upgrade
import Mathlib.Data.List.Infix

/-!
# Incoming events

The way of an event that a peer delivers: `parse_incoming_pdu`, the room's part of
a transaction (`send.rs`), `handle_incoming_pdu` with its deadline, and
`process_timeline_upgrade` with `handle_prev_pdu` for the predecessors.
-/

namespace Congruent

open H

/-- `str::contains`. -/
def containsText (msg sub : String) : Bool := decide (sub.toList <:+: msg.toList)

section
variable (plat : Platform)

/-! ## Predecessors (`handle_prev_pdu.rs`) -/

/-- Whether a stored predecessor is not rejected. -/
def notRejected (id : EventId) : H Bool :=
  Call.act fun s => if s.isEventRejected id then (.ok false, s) else
    (.ok true, (Write.note (.eligible id)).apply plat s)

/-- Whether the rejection of a stored predecessor may be retried. -/
def retryWorthy (id : EventId) : H Bool :=
  Call.act fun s => if (s.rejection id).any RejectionCode.isRetryable then
    (.ok true, (Write.note (.eligible id)).apply plat s) else (.ok false, s)

/-- Whether a stored predecessor is not rejected for good. -/
def eligiblePrev (id : EventId) : H Bool := do
  if ← notRejected plat id then pure true else retryWorthy plat id

def storedPrev (room : RoomId) (id : EventId) : H (Option (Pdu × Object)) := do
  if (← read fun s => s.getPduId id).isSome then pure none
  else if ← eligiblePrev plat id then
    match ← getOutlierPduJson plat room id with
    | none => pure none
    | some json =>
      match fromIdVal plat id json room with
      | .error _ => pure none
      | .ok pdu => do
        note plat (.promoted room id json)
        pure (some (pdu, json))
  else pure none

def prevInfo (room : RoomId) (id : EventId) (info : Option (Pdu × Object)) : H (Option (Pdu × Object)) :=
  match info with
  | some info => pure (some info)
  | none => storedPrev plat room id

def handlePrevPdu (n call : Nat) (origin : ServerName) (id : EventId) (room : RoomId) (info : Option (Pdu × Object))
    (create : Pdu) (firstTs : Nat) (prev : EventId) (anchor : Option EventId) : H Bool := do
  if ← ask plat fun w => w.isDisabled room then
    throw (.request ("Federaton of room " ++ room ++ " is currently disabled on this server. Request by origin " ++
      origin ++ " and event ID " ++ id))
  else if ← ask plat fun w => w.backingOff prev then pure false
  else
    match ← prevInfo plat room prev info with
    | none => pure false
    | some (pdu, json) =>
      if pdu.originServerTs < firstTs then pure false
      else if (← read fun s => s.rejection prev) = some .stateResolutionFailedWithPrevsPresent then pure false
      else do
        let (_, recovered) ← upgradeOutlierToTimelinePdu plat n call pdu json create origin room false false anchor
        pure recovered

/-! ## `process_timeline_upgrade` -/

def prefetchedOr (origin : ServerName) (room : RoomId) (pdu : Pdu) (prefetched : Option PrevFetch) : H PrevFetch :=
  match prefetched with
  | some fetch => pure fetch
  | none => fetchPrev plat origin room pdu.eventId pdu.prevEvents (some (plat.codec.userServerName pdu.sender))

/-- The predecessors that pass their own checks. -/
abbrev PrevInfos := List (EventId × (Pdu × Object))

def checkPrev (n : Nat) (origin : ServerName) (create : Pdu) (room : RoomId) (v : RoomVersionId) (fetch : PrevFetch)
    (infos : PrevInfos) (prev : EventId) : H PrevInfos :=
  match List.lookup prev fetch.fetched with
  | none => pure infos
  | some value => do
    match ← (handleOutlierPdu plat origin (some create) room v .afterStateIds n prev value false).attempt with
    | .ok info => pure ((prev, info) :: infos)
    | .error _ => pure infos

/-- Upgrades one predecessor; a failure does not stop the event itself. -/
def upgradePrev (n call : Nat) (origin : ServerName) (id : EventId) (room : RoomId) (create : Pdu) (firstTs : Nat)
    (fetch : PrevFetch) (infos : PrevInfos) (recovered : Bool) (prev : EventId) : H Bool := do
  let anchor := if fetch.sorted.getLast? = some prev then fetch.anchor else none
  let result ← (handlePrevPdu plat n call origin id room (List.lookup prev infos) create firstTs
    prev anchor).attempt
  Call.refuse (!(← ask plat fun w => w.running)) (.database "server is shutting down")
  pure (recovered || match result with
    | .ok b => b
    | .error _ => false)

def upgradeWithPrevs (n call : Nat) (pdu : Pdu) (json : Object) (create : Pdu) (origin : ServerName) (room : RoomId)
    (firstTs : Nat) (v : RoomVersionId) (fetch : PrevFetch) : H (Option Nat) := do
  let infos ← fetch.sorted.foldlM (checkPrev plat n origin create room v fetch) []
  let recovered ← fetch.sorted.foldlM
    (upgradePrev plat n call origin pdu.eventId room create firstTs fetch infos) false
  let (position, _) ← upgradeOutlierToTimelinePdu plat n call pdu json create origin room true
    recovered fetch.anchor
  pure position

def processTimelineUpgrade (n call : Nat) (pdu : Pdu) (json : Object) (create : Pdu) (origin : ServerName)
    (room : RoomId) (prefetched : Option PrevFetch) : H (Option Nat) := do
  let firstTs ← orElse (← ask plat fun w => w.firstPduTs room) (.database "no event in the room")
  let v ← orElse (← ask plat fun w => w.roomVersion room) (.database "No room version")
  let fetch ← prefetchedOr plat origin room pdu prefetched
  let allUnknown ← read fun s => pdu.prevEvents.all fun prev =>
    (List.lookup prev fetch.fetched).isNone && !s.pduExists prev
  if fetch.invalid && allUnknown then do
    addPduOutlier plat room pdu.eventId json
    markEventRejected plat pdu.eventId .structurallyInvalidInGetMissingEvents
    throw (.request "prev_event contained structurally invalid data")
  else upgradeWithPrevs plat n call pdu json create origin room firstTs v fetch

/-! ## Invites that are taken back -/

/-- Whether a leave or ban is provably older than the invite. -/
def leavePredatesInvite (leaveTs : Option Int) (inviteTs : Option Int) : Bool :=
  match leaveTs, inviteTs with
  | some leave, some invite => decide (0 ≤ leave) && decide (leave < invite)
  | _, _ => false

def strField (event : Object) (key : String) : Except HErr (Option String) :=
  match event.get key with
  | none => .ok none
  | some (.str s) => .ok (some s)
  | some _ => .error (.request ("invalid " ++ key))

/-- Whether one of the stripped events is the invite to take back. -/
def rescindsInvite (value : Object) (target sender : UserId) : List Object → Except HErr Bool
  | [] => .ok false
  | event :: events => do
    let kind ← strField event "type"
    let key ← strField event "state_key"
    let from' ← strField event "sender"
    let membership := ((event.get "content").bind fun c => c.get "membership").bind Value.asStr
    if kind = some "m.room.member" ∧ key = some target ∧ from' = some sender ∧ membership = some "invite" then
      .ok (!leavePredatesInvite ((value.get "origin_server_ts").bind Value.asI64)
        ((event.get "origin_server_ts").bind Value.asI64))
    else rescindsInvite value target sender events

def shouldRescindInvite (value : Object) (sender : UserId) (room : RoomId) : H Bool := do
  let field (key : String) : Option String := (value.get key).bind Value.asStr
  let membership := ((value.get "content").bind fun c => c.get "membership").bind Value.asStr
  match field "state_key" with
  | none => pure false
  | some key =>
    if (field "room_id").any (· ≠ room) || field "sender" ≠ some sender || field "type" ≠ some "m.room.member" then
      pure false
    else
      match plat.codec.parseUserId key with
      | none => throw (.request "invalid user id")
      | some target =>
        if membership ≠ some "leave" ∧ membership ≠ some "ban" then pure false
        else if plat.codec.userServerName target ≠ plat.serverName then pure false
        else
          match ← ask plat fun w => w.inviteState target room with
          | none => pure false
          | some events => lift (rescindsInvite value target sender events)

/-! ## The retry of rejected outliers -/

/-- Reads a condition, and notes it when it holds. -/
def noting (m : Mark) (b : Server → Bool) : H Bool :=
  Call.act fun s => if b s then (.ok true, (Write.note m).apply plat s) else (.ok false, s)

def authEventsAccepted (call : Nat) : List EventId → H Bool
  | [] => pure true
  | aid :: aids => do
    if ← noting plat (.authAccepted call aid) fun s => s.isEventAccepted aid then authEventsAccepted call aids
    else pure false

/-- Whether all predecessors are in the timeline. -/
def prevEventsInTimeline (call : Nat) : List EventId → H Bool
  | [] => pure true
  | prev :: prevs => do
    if ← noting plat (.prevInTimeline call prev) fun s =>
      (s.getPduId prev).isSome then prevEventsInTimeline call prevs
    else pure false

def depsSatisfied (call : Nat) (pdu : Pdu) : H Bool := do
  if ← authEventsAccepted plat call pdu.authEvents then prevEventsInTimeline plat call pdu.prevEvents else
    pure false

def retryJson (call : Nat) (room : RoomId) (id : EventId) (value : Object) : H Object := do
  let json := (← getOutlierPduJson plat room id).getD value
  note plat (.retried call room id json)
  pure json

def roomCreate (room : RoomId) : H Pdu := do
  orElse (← read fun s => s.roomStateGet plat room .roomCreate "") (.database "create event not found")

def retryRejected (n call : Nat) (origin : ServerName) (room : RoomId) (id : EventId) (value : Object) (pdu : Pdu) :
    H (Option (Option Nat)) := do
  if ← depsSatisfied plat call pdu then do
    write plat (.unreject call id)
    let create ← roomCreate plat room
    let json ← retryJson plat call room id value
    some <$> processTimelineUpgrade plat n call pdu json create origin room none
  else pure (some none)

/-- `none`: the event is no rejected outlier. -/
def nativeRetry (n call : Nat) (origin : ServerName) (room : RoomId) (id : EventId) (value : Object) :
    H (Option (Option Nat)) := do
  match ← read fun s => s.getPdu plat id with
  | none => pure none
  | some pdu =>
    if ← noting plat (.considered call id pdu.authEvents pdu.prevEvents) fun s => !s.isEventAccepted id then
      retryRejected plat n call origin room id value pdu
    else pure none

def acceptedAlready (id : EventId) : H (Option Nat) := do
  match ← read fun s => s.getPduId id with
  | none => pure none
  | some position => if ← read fun s => s.isEventAccepted id then pure (some position) else pure none

/-! ## Access control -/

def isDisabled (call : Nat) (room : RoomId) : H Bool :=
  Call.act fun s => if (s.world s.clock).isDisabled room then (.ok true, Write.tick.apply plat s)
    else (.ok false, Write.tick.apply plat ((Write.note (.notDisabled call room)).apply plat s))

def aclCheck (call : Nat) (server : ServerName) (room : RoomId) : H Unit :=
  Call.act fun s => if s.aclCheck plat server room then
      (.ok (), (Write.note (.aclAllowed call room server)).apply plat s)
    else (.error (.request "Server was denied by room ACL"), s)

def senderAclCheck (call : Nat) (origin server : ServerName) (room : RoomId) : H Unit :=
  if server = origin then pure () else aclCheck plat call server room

/-- The sender of a delivered event. -/
def incomingSender (value : Object) : Option UserId :=
  ((value.get "sender").bind Value.asStr).bind plat.codec.parseUserId

def accessCheck (call : Nat) (origin : ServerName) (room : RoomId) (value : Object) : H (UserId × Bool) := do
  let metaExists ← ask plat fun w => w.metaExists room
  let sender ← orElse (incomingSender plat value) (.request "PDU does not have a valid sender key")
  let disabled ← isDisabled plat call room
  aclCheck plat call origin room
  senderAclCheck plat call origin (plat.codec.userServerName sender) room
  Call.refuse disabled (.request "Federation of this room is disabled by this server.")
  pure (sender, metaExists)

/-- What becomes of an event of a room the server is not in: `some` when it is
done with. -/
def notParticipating (room : RoomId) (id : EventId) (value : Object) (sender : UserId) (metaExists : Bool) :
    H (Option (Option Nat)) := do
  let isMember := (value.get "type").bind Value.asStr = some "m.room.member"
  if !isMember then throw (.request "This server is not participating in that room.")
  else if ← shouldRescindInvite plat value sender room then do
    addPduOutlier plat room id value
    pure (some none)
  else if metaExists then pure none
  else do
    addPduOutlier plat room id value
    pure (some none)

def participation (room : RoomId) (id : EventId) (value : Object) (sender : UserId) (metaExists : Bool) :
    H (Option (Option Nat)) := do
  if ← ask plat fun w => w.serverInRoom room then pure none
  else notParticipating plat room id value sender metaExists

/-! ## Missing auth events -/

/-- Where the state is asked for, and the predecessors fetched on the way. -/
structure Anchor where
  directPrev : Option EventId
  anchor : EventId
  prefetched : Option PrevFetch

def directPrevOf (pdu : Option Pdu) : Option EventId :=
  match pdu.map (·.prevEvents) with
  | some [prev] => some prev
  | _ => none

/-- A predecessor fetch that is worth keeping. -/
def PrevFetch.keep (fetch : PrevFetch) : Bool := !fetch.sorted.isEmpty || fetch.anchor.isSome || fetch.invalid

def stateIdsAnchor (origin : ServerName) (room : RoomId) (id : EventId) (pdu : Option Pdu)
    (isTimelineEvent : Bool) :
    H Anchor := do
  let direct := directPrevOf pdu
  match pdu, direct with
  | some pdu, some prev =>
    if isTimelineEvent then
      match ← (fetchPrev plat origin room id pdu.prevEvents
        (some (plat.codec.userServerName pdu.sender))).attempt with
      | .ok fetch => if fetch.keep then pure ⟨direct, fetch.anchor.getD prev, some fetch⟩ else
          pure ⟨direct, prev, none⟩
      | .error _ => pure ⟨direct, prev, none⟩
    else pure ⟨direct, prev, none⟩
  | _, _ => pure ⟨direct, direct.getD id, none⟩

def fetchMissing (n : Nat) (origin : ServerName) (create : Pdu) (room : RoomId) (v : RoomVersionId) (fetches : Nat)
    (mid : EventId) : H Nat := do
  if ← read fun s => s.pduExists mid then pure fetches
  else if 5 ≤ fetches then pure fetches
  else
    match ← ask plat fun w => w.getEvent origin mid with
    | some (raw :: _) =>
      match ← (genEventIdCanonicalJson plat room v raw).attempt with
      | .ok (eid, value) =>
        if eid = mid then do
          let _ ← (handleOutlierPdu plat origin (some create) room v .afterStateIds n mid value false).attempt
          pure (fetches + 1)
        else pure (fetches + 1)
      | .error _ => pure (fetches + 1)
    | _ => pure (fetches + 1)

def fetchAnchorState (n : Nat) (origin : ServerName) (create : Pdu) (room : RoomId)
    (isPartial : Bool) (a : Anchor) :
    H Unit := do
  let known ← read fun s => s.pduExists a.anchor
  if isPartial && (a.directPrev.isNone || known) then pure ()
  else do
    let _ ← fetchState plat n origin create room a.anchor false
    pure ()

def retryWithState (n : Nat) (origin : ServerName) (create : Pdu) (room : RoomId) (id : EventId) (value : Object)
    (roomVersion : RoomVersionId) (missing : List EventId) (isPartial : Bool) (a : Anchor) : H (Pdu × Object) := do
  fetchAnchorState plat n origin create room isPartial a
  let v ← orElse (← ask plat fun w => w.roomVersion room) (.database "No room version")
  let _ ← missing.foldlM (fetchMissing plat n origin create room v) 0
  handleOutlierPdu plat origin (some create) room roomVersion .afterStateIds n id value false

def anyPoisons (room : RoomId) : List EventId → H Bool
  | [] => pure false
  | mid :: missing => do
    if ← authEventPoisons plat mid room then pure true else anyPoisons room missing

/-- An event that passed its checks, or nothing to go on with. -/
abbrev Passed := Option (Pdu × Object × Option PrevFetch)

def recoverMissing (n : Nat) (origin : ServerName) (create : Pdu) (room : RoomId) (id : EventId) (value : Object)
    (roomVersion : RoomVersionId) (missing : List EventId) (isTimelineEvent isPartial : Bool) : H Passed := do
  if ← anyPoisons plat room missing then do
    addPduOutlier plat room id value
    markEventRejected plat id .dependsOnRejectedAuthEvent
    pure none
  else do
    let parsed := (fromIdVal plat id value room).toOption
    let a ← stateIdsAnchor plat origin room id parsed isTimelineEvent
    match ← (retryWithState plat n origin create room id value roomVersion missing isPartial a).attempt with
    | .ok (pdu, json) => pure (some (pdu, json, a.prefetched))
    | .error _ => do
      addPduOutlier plat room id value
      pure none

def storeDependent (room : RoomId) (id : EventId) (value : Object) (msg : String) : H Passed := do
  addPduOutlier plat room id value
  if containsText msg "Event depends on rejected auth event" then do
    markEventRejected plat id .dependsOnRejectedAuthEvent
    pure none
  else pure none

/-- Whether a predecessor of the event is unknown. -/
def hasMissingPrev (room : RoomId) (id : EventId) (value : Object) (isPartial : Bool) : H Bool :=
  match isPartial, fromIdVal plat id value room with
  | true, .ok pdu => read fun s => pdu.prevEvents.any fun prev => !s.pduExists prev
  | _, _ => pure false

def checkIncoming (n : Nat) (origin : ServerName) (create : Pdu) (room : RoomId) (id : EventId) (value : Object)
    (isTimelineEvent : Bool) (roomVersion : RoomVersionId) : H Passed := do
  let isPartial ← partialServer plat room
  let missingPrev ← hasMissingPrev plat room id value isPartial
  let stage := if isPartial && !missingPrev then AuthRecoveryStage.afterStateIds else .beforeStateIds
  match ← (handleOutlierPdu plat origin (some create) room roomVersion stage n id value false).attempt with
  | .ok (pdu, json) => pure (some (pdu, json, none))
  | .error (.missingAuthEvents missing) =>
    recoverMissing plat n origin create room id value roomVersion missing isTimelineEvent isPartial
  | .error (.request msg) =>
    if containsText msg "Cannot determine state: all prev_events are rejected" then do
      addPduOutlier plat room id value
      pure none
    else if containsText msg "Event depends on rejected auth event" ||
        containsText msg "is already known and rejected" then storeDependent plat room id value msg
    else throw (.request msg)
  | .error e => throw e

/-! ## `handle_incoming_pdu` -/

/-- The way of an event that is no rejected outlier. -/
def admitIncoming (n call : Nat) (origin : ServerName) (room : RoomId) (id : EventId) (value : Object)
    (isTimelineEvent : Bool) (roomVersion : RoomVersionId) : H (Option Nat) := do
  Call.refuse (!pduFits plat value) (.request "PDU is too large")
  let (sender, metaExists) ← accessCheck plat call origin room value
  match ← participation plat room id value sender metaExists with
  | some done => pure done
  | none => do
    Call.refuse (!metaExists) (.request "Room is unknown to this server")
    let create ← roomCreate plat room
    match ← checkIncoming plat n origin create room id value isTimelineEvent roomVersion with
    | none => pure none
    | some (pdu, json, prefetched) =>
      if isTimelineEvent then processTimelineUpgrade plat n call pdu json create origin room prefetched
      else pure none

def retryIncoming (n call : Nat) (origin : ServerName) (room : RoomId) (id : EventId) (value : Object)
    (isTimelineEvent : Bool) : H (Option (Option Nat)) :=
  if isTimelineEvent then nativeRetry plat n call origin room id value else pure none

def handleIncomingPduInner (n call : Nat) (origin : ServerName) (room : RoomId) (id : EventId) (value : Object)
    (isTimelineEvent : Bool) (roomVersion : RoomVersionId) : H (Option Nat) := do
  match ← acceptedAlready id with
  | some position => pure (some position)
  | none =>
    match ← retryIncoming plat n call origin room id value isTimelineEvent with
    | some done => pure done
    | none => admitIncoming plat n call origin room id value isTimelineEvent roomVersion

def storeTimedOut (room : RoomId) (id : EventId) (value : Object) : H (Option Nat) := do
  addPduOutlier plat room id (value.insert "event_id" (.str id))
  throw (.request "PDU processing timed out, please retry later.")

/-- Handles a delivered event; after `n` operations its time is up. -/
def handleIncomingPdu (n call : Nat) (origin : ServerName) (room : RoomId) (id : EventId) (value : Object)
    (isTimelineEvent : Bool) (roomVersion : RoomVersionId) : H (Option Nat) := do
  note plat (.delivered call origin room id value)
  ExceptT.mk (Prog.cut n (handleIncomingPduInner plat n call origin room id value isTimelineEvent
    roomVersion).run >>=
    fun
      | some r => pure r
      | none => (storeTimedOut plat room id value).run)

end

end Congruent
