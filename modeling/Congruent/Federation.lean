import Congruent.FetchOutliers
import Congruent.IncomingSpec

/-!
# Serving peers

What peers make the server do: the events of their transactions
(`parse_incoming_pdu`, and `handle_room` of `send.rs`), events that other endpoints
hand over, and outliers to fetch. Any number of such jobs run interleaved.
-/

namespace Congruent

open H
open Call (Ensures Keeps)

section
variable (plat : Platform)

/-! ## `parse_incoming_pdu` -/

def namesRoom (v : RoomVersionId) : Bool :=
  [.V1, .V2, .V3, .V4, .V5, .V6, .V7, .V8, .V9, .V10, .V11].contains v

def extractRoomId (kind : String) (value : Object) : Except HErr RoomId :=
  match (value.get "room_id").bind Value.asStr with
  | some r => match plat.parseRoomId r with
    | some room => .ok room
    | none => .error (.request ("Invalid room_id " ++ r ++ " in pdu"))
  | none =>
    if kind ≠ "m.room.create" ∨ (value.get "state_key").isNone then .error (.request "Missing room_id in pdu")
    else match (value.get "content").bind Value.asObject with
      | none => .error (.request "Missing or invalid content in pdu")
      | some content => match plat.parseVersion (((content.get "room_version").bind Value.asStr).getD "1") with
        | none => .error (.request "Invalid room_version in pdu")
        | some v =>
          if namesRoom v then .error (.request "Missing room_id in pdu")
          else match plat.genEventId v value with
            | .error e => .error e
            | .ok id =>
              match plat.parseRoomId (String.ofList (id.toList.map fun ch => if ch = '$' then '!' else ch)) with
              | some room => .ok room
              | none => .error (.request "constructed room ID has to be valid")

def roomOfAuthEvents : List EventId → H (Option RoomId)
  | [] => pure none
  | aid :: aids => do
    match ← read fun s => (s.getPdu plat aid).bind fun pdu => pdu.roomIdOrHash plat.codec with
    | some room => pure (some room)
    | none => roomOfAuthEvents aids

def incomingRoomId (kind : String) (value : Object) : H RoomId := do
  match extractRoomId plat kind value with
  | .ok room => pure room
  | .error _ => do
    let aids ← orElse ((value.get "auth_events").bind Value.asArray) (.request "Missing room_id in PDU")
    -- `MAX_AUTH_EVENTS_ROOM_ID_FALLBACK`
    let ids := (aids.take 10).filterMap fun v => v.asStr.bind plat.codec.parseEventId
    orElse (← roomOfAuthEvents plat ids) (.request "Missing room_id in PDU")

def invitedVersion (events : List Object) : Option RoomVersionId :=
  events.findSome? fun event =>
    if (event.get "type").bind Value.asStr = some "m.room.create" then
      match ((event.get "content").bind fun c => c.get "room_version").bind Value.asStr with
      | none => some .V1
      | some version => plat.parseVersion version
    else none

def inviteStateOf (room : RoomId) (value : Object) : H (List Object) :=
  match ((value.get "state_key").bind Value.asStr).bind plat.codec.parseUserId with
  | none => pure []
  | some invitee => do
    let state ← ask plat fun w => w.inviteState invitee room
    pure (state.getD [])

def roomVersionWithoutRoomState (room : RoomId) (value : Object) : H RoomVersionId := do
  match invitedVersion plat (← inviteStateOf plat room value) with
  | some v => pure v
  | none => pure (if (value.get "event_id").isSome then .V1 else .V11)

def incomingVersion (room : RoomId) (value : Object) : H RoomVersionId := do
  match ← ask plat fun w => w.roomVersion room with
  | some v => pure v
  | none => roomVersionWithoutRoomState plat room value

def expectEventIdArray (value : Object) (field : String) : Except HErr (List EventId) :=
  match value.get field with
  | none => .error (.request ("missing field " ++ field ++ " on PDU"))
  | some v => match v.asArray with
    | none => .error (.request ("expected an array PDU field " ++ field))
    | some vs => vs.mapM fun v => match v.asStr with
      | none => .error (.request ("expected an array of event IDs for " ++ field))
      | some id => match plat.codec.parseEventId id with
        | some id => .ok id
        | none => .error (.request ("invalid event ID in " ++ field))

def validatePdu (value : Object) : Except HErr Unit := do
  let authEvents ← expectEventIdArray plat value "auth_events"
  if 10 < authEvents.length then .error (.request "PDU has too many auth events")
  else
    let prevEvents ← expectEventIdArray plat value "prev_events"
    if 20 < prevEvents.length then .error (.request "PDU has too many prev events") else .ok ()

def parseIncomingPdu (raw : RawPdu) : H (RoomId × EventId × Object) := do
  let value ← orElse raw (.badServerResponse "Incoming event is not valid canonical JSON")
  let kind ← orElse ((value.get "type").bind Value.asStr) (.request "Missing or invalid type in pdu")
  let room ← incomingRoomId plat kind value
  let v ← incomingVersion plat room value
  let (id, value) ← genEventIdCanonicalJson plat room v raw
  lift (validatePdu plat value)
  pure (room, id, value)

/-! ## `handle_room` -/

/-- The version of a room the server has no state of; `none` when the event is done with. -/
def unknownRoomVersion (room : RoomId) (id : EventId) (value : Object) : H (Option RoomVersionId) := do
  let kind := (value.get "type").bind Value.asStr
  if kind = some "m.room.create" then
    match (((value.get "content").bind Value.asObject).bind fun c => c.get "room_version").bind Value.asStr with
    | none => pure (some .V1)
    | some version => do
      let v ← orElse (plat.parseVersion version) (.database "invalid room version")
      pure (some v)
  else
    match ← ask plat fun w => w.invitedRoomVersion room with
    | some v => pure (some v)
    | none =>
      if kind = some "m.room.member" then do
        addPduOutlier plat room id value
        pure none
      else throw (.request "This server is not participating in that room.")

def roomVersionFor (room : RoomId) (id : EventId) (value : Object) : H (Option RoomVersionId) := do
  match ← ask plat fun w => w.roomVersion room with
  | some v => pure (some v)
  | none => unknownRoomVersion plat room id value

/-- One event of a transaction. -/
def handleRoomPdu (n call : Nat) (origin : ServerName) (raw : RawPdu) : H Unit := do
  let (room, id, value) ← parseIncomingPdu plat raw
  match ← roomVersionFor plat room id value with
  | none => pure ()
  | some v => do
    Call.refuse (!(← ask plat fun w => w.running)) (.database "server is shutting down")
    let _ ← handleIncomingPdu plat n call origin room id value true v
    pure ()

/-! ## Jobs -/

inductive Job where
  | pdu (origin : ServerName) (raw : RawPdu)
  /-- An event that another endpoint hands over. -/
  | event (origin : ServerName) (room : RoomId) (v : RoomVersionId) (raw : RawPdu) (isTimelineEvent : Bool)
  | outliers (origin : ServerName) (ids : List EventId) (create : Option Pdu) (room : RoomId) (v : RoomVersionId)
      (servers : Option (List ServerName))

/-- Does a job; after `n` operations of a delivery its time is up. -/
def Job.run (n call : Nat) : Job → H Unit
  | .pdu origin raw => handleRoomPdu plat n call origin raw
  | .event origin room v raw isTimelineEvent => do
    let (id, value) ← genEventIdCanonicalJson plat room v raw
    let _ ← handleIncomingPdu plat n call origin room id value isTimelineEvent v
    pure ()
  | .outliers origin ids create room v servers => do
    let _ ← fetchAndHandleOutliers plat n origin ids create room false v servers
    pure ()

/-- The programs of some jobs, each with its time, numbered in order. -/
def pool (jobs : List (Nat × Job)) : List (Prog Server (Except HErr Unit)) :=
  jobs.zipIdx.map fun j => (j.1.2.run plat j.1.1 j.2).run

def serve (jobs : List (Nat × Job)) (schedule : List Nat) (s : Server) : Server :=
  (Prog.schedule schedule (pool plat jobs) s).2

end

/-! ## What they write -/

section
variable {plat : Platform} {s : Server}

theorem roomOfAuthEvents_keeps : ∀ ids, Keeps (Step plat) (roomOfAuthEvents plat ids) s
  | [] => pure_keeps _
  | aid :: aids => by
    unfold roomOfAuthEvents
    refine (read_keeps _).andThen fun room => ?_
    split
    · exact pure_keeps _
    · exact roomOfAuthEvents_keeps aids

theorem incomingRoomId_keeps (kind : String) (value : Object) : Keeps (Step plat)
    (incomingRoomId plat kind value) s := by
  unfold incomingRoomId
  split
  · exact pure_keeps _
  · exact (orElse_keeps _ _).andThen fun _ => (roomOfAuthEvents_keeps _).andThen fun _ => orElse_keeps _ _

theorem incomingVersion_keeps (room : RoomId) (value : Object) :
    Keeps (Step plat) (incomingVersion plat room value) s := by
  unfold incomingVersion
  refine (ask_keeps _).andThen fun version => ?_
  split
  · exact pure_keeps _
  · unfold roomVersionWithoutRoomState inviteStateOf
    refine Ensures.andThen ?_ fun events => ?_
    · split
      · exact pure_keeps _
      · exact (ask_keeps _).andThen fun _ => pure_keeps _
    · split <;> exact pure_keeps _

theorem parseIncomingPdu_ensures (raw : RawPdu) :
    Ensures (Step plat) (fun r s => Taken s.log r.1 r.2.1 r.2.2) (parseIncomingPdu plat raw) s := by
  unfold parseIncomingPdu
  refine (orElse_keeps _ _).andThen fun value => (orElse_keeps _ _).andThen fun kind => ?_
  refine (incomingRoomId_keeps kind value).andThen fun room =>
    (incomingVersion_keeps room value).andThen fun v => ?_
  refine (genEventId_ensures room v raw).bind fun r s₁ _ ht => ?_
  refine (lift_keeps _).bind fun _ s₂ hr₂ _ => Ensures.pure fun s₃ hr₃ => ?_
  exact ht.later (hr₂.trans hr₃)

theorem roomVersionFor_keeps {room : RoomId} {id : EventId} {value : Object} (ht : Taken s.log room id value) :
    Keeps (Step plat) (roomVersionFor plat room id value) s := by
  unfold roomVersionFor
  refine (ask_keeps _).andThen fun version => ?_
  split
  · exact pure_keeps _
  · unfold unknownRoomVersion
    simp only
    split
    · split
      · exact pure_keeps _
      · exact (orElse_keeps _ _).andThen fun _ => pure_keeps _
    · refine (ask_keeps _).andThen fun invited => ?_
      split
      · exact pure_keeps _
      · split
        · exact (addPduOutlier_keeps ht.traced).andThen fun _ => pure_keeps _
        · exact Ensures.throw

theorem handleRoomPdu_keeps (n call : Nat) (origin : ServerName) (raw : RawPdu) :
    Keeps (Step plat) (handleRoomPdu plat n call origin raw) s := by
  unfold handleRoomPdu
  refine (parseIncomingPdu_ensures raw).bind fun r s₁ _ ht => (roomVersionFor_keeps ht).andThen fun version => ?_
  split
  · exact pure_keeps _
  · refine (ask_keeps _).andThen fun _ => Ensures.refuse.keeps.andThen fun _ => ?_
    exact (handleIncomingPdu_keeps n ht true _).andThen fun _ => pure_keeps _

theorem Job.run_keeps (n call : Nat) (job : Job) : Keeps (Step plat) (job.run plat n call) s := by
  cases job with
  | pdu origin raw => exact handleRoomPdu_keeps n call origin raw
  | event origin room v raw flag =>
    refine (genEventId_ensures room v raw).bind fun r s₁ _ ht => ?_
    exact (handleIncomingPdu_keeps n ht flag v).andThen fun _ => pure_keeps _
  | outliers origin ids create room v servers =>
    exact (fetchAndHandleOutliers_keeps n origin ids servers).andThen fun _ => pure_keeps _

theorem serve_path (jobs : List (Nat × Job)) (schedule : List Nat) (s : Server) :
    Path plat s (serve plat jobs schedule s) := by
  have hpool : Prog.PoolSafe (fun _ => True) (Path plat) (fun _ _ _ => True) jobs.zipIdx (pool plat jobs) s := by
    refine List.forall₂_map_right_iff.mpr (List.forall₂_same.mpr fun j _ => ?_)
    exact Prog.Guarded.mono (fun _ _ _ _ => trivial) (j.1.2.run_keeps j.1.1 j.2)
  exact (Prog.schedule_safe Call.steps_refl Call.steps_trans schedule trivial hpool).2.1

end

/-! ## A server for concrete runs -/

namespace Platform

def readIds (json : Object) (field : String) : List EventId :=
  (((json.get field).bind Value.asArray).getD []).filterMap Value.asStr

def readNat (json : Object) (field : String) : Nat := (((json.get field).bind Value.asI64).getD 0).toNat

def readPdu (json : Object) : Except String Pdu :=
  match (json.get "type").bind Value.asStr, (json.get "sender").bind Value.asStr with
  | some kind, some sender => .ok
    { eventId := ((json.get "event_id").bind Value.asStr).getD ""
      roomId := (json.get "room_id").bind Value.asStr
      sender := sender
      originServerTs := readNat json "origin_server_ts"
      kind := Codec.readEventType kind
      content := (json.get "content").getD (.obj [])
      stateKey := (json.get "state_key").bind Value.asStr
      prevEvents := readIds json "prev_events"
      depth := readNat json "depth"
      authEvents := readIds json "auth_events"
      redacts := (json.get "redacts").bind Value.asStr
      rejected := false }
  | _, _ => .error "missing field"

def mergeStates (sets : List (StateMap EventId)) : StateMap EventId :=
  sets.foldl (fun acc set => set.entries.foldl (fun acc e => acc.insert e.1 e.2) acc) ∅

/-- The platform of the concrete runs: events have the hash they name, redaction
empties the content, and claimed auth events are believed. -/
def plain : Platform where
  codec := .plain
  decodePdu := readPdu
  reencode := id
  referenceHash _ json := .ok (((json.get "hashes").bind Value.asStr).getD "")
  redact _ json := .ok (json.insert "content" (.obj []))
  textLength := List.length
  parseRoomId s := if (stripChar '!' s).isSome then some s else none
  parseVersion s := (Codec.readVersion (.str s)).toOption
  rezzyAuthCheck _ _ _ _ := true
  authTypesForEvent _ pdu :=
    [(.roomCreate, ""), (.roomPowerLevels, ""), (.roomMember, pdu.sender), (.roomJoinRules, "")]
  resolveStateMaps _ sets _ := mergeStates sets
  lookedUp _ _ _ := []
  serverAcl content :=
    match content.asObject with
    | some acl => some ⟨readIds acl "allow", readIds acl "deny"⟩
    | none => none
  aclIsAllowed acl server := !acl.deny.contains server && (acl.allow.contains "*" || acl.allow.contains server)
  serverName := "a"
  bypassedSignatureEvents := []
  maxForwardExtremities := 10
  maxFetchPrevEvents := 192

end Platform

/-- A world in which signatures are good and no peer answers. -/
def World.plain : World where
  verify _ _ := .ok .all
  getEvent _ _ := none
  eventAuth _ _ _ := none
  stateIds _ _ _ := none
  missingEvents _ _ _ := none
  eventRelationships _ _ _ := none
  serverPool _ origin := [origin]
  federationServers _ origin _ := [origin]
  metaExists _ := true
  isDisabled _ := false
  serverInRoom _ := true
  partialServer _ := false
  roomVersion _ := some .V11
  invitedRoomVersion _ := none
  inviteState _ _ := none
  firstPduTs _ := some 0
  backingOff _ := false
  policySpam _ _ := false
  userCanRedact _ _ _ := .ok true
  running := true
  order n := List.range n

/-- An event of the room `!r:a` on the wire. -/
def wireEvent (hash kind sender : String) (stateKey : Option String) (content : Object) (auth prev : List EventId) :
    Object :=
  [("type", .str kind), ("sender", .str sender), ("room_id", .str "!r:a"), ("content", .obj content),
    ("auth_events", .arr (auth.map .str)), ("prev_events", .arr (prev.map .str)), ("hashes", .str hash)] ++
    (match stateKey with
    | some key => [("state_key", .str key)]
    | none => [])

/-- A server in a room whose creator `@u:b` has joined. -/
def Server.plain (world : Nat → World) : Server where
  eventidPdu id := List.lookup id
    [("$c", wireEvent "c" "m.room.create" "@u:b" (some "") [("room_version", .str "11")] [] []),
      ("$j", wireEvent "j" "m.room.member" "@u:b" (some "@u:b") [("membership", .str "join")] ["$c"] ["$c"])]
  eventidMetadata id := List.lookup id [("$c", ⟨false, some 0⟩), ("$j", ⟨false, some 1⟩)]
  rejection _ := none
  softFailed _ := false
  referenced room id := decide (room = "!r:a" ∧ id = "$c")
  pduleaves room := if room = "!r:a" then ["$j"] else []
  eventRoot id := List.lookup id [("$c", (∅ : Root).insert (.roomCreate, "") "$c"),
    ("$j", ((∅ : Root).insert (.roomCreate, "") "$c").insert (.roomMember, "@u:b") "$j")]
  roomRoot room :=
    if room = "!r:a" then some (((∅ : Root).insert (.roomCreate, "") "$c").insert (.roomMember, "@u:b") "$j")
    else none
  count := 2
  world := world
  clock := 0
  log := []

end Congruent
