import Congruent.Handler

/-!
# `handle_outlier_pdu`

An event is checked on its own: its size, signatures and hashes, its format, and
its claimed auth events, which are fetched when they are missing.
-/

namespace Congruent

open H

inductive AuthRecoveryStage where
  | beforeStateIds
  | afterStateIds
  deriving DecidableEq, Repr

abbrev AuthEvents := List (EventId × Pdu)

def AuthEvents.get (events : AuthEvents) (id : EventId) : Option Pdu := List.lookup id events

section
variable (plat : Platform)

/-! ## Already known events -/

/-- What a known event's verdict makes of it, under the insert lock: a rejection
that may be retried is replaced by a pending one. -/
def knownVerdict (room : RoomId) (id : EventId) (value : Object) (pdu : Pdu) (json : Object) :
    H (Option (Pdu × Object)) :=
  Call.act fun s =>
    if (s.rejection id).any RejectionCode.isRetryable then
      (.ok none, (Write.markEventRejected id .missingAuthEvent).apply plat ((Write.takeRetry id).apply plat s))
    else if s.isEventRejected id then
      (.error (.request ("Event " ++ id ++ " is already known and rejected")), s)
    else (.ok (some (pdu, json)), (Write.note (.returned .known room id value json)).apply plat s)

def knownOutlier (room : RoomId) (id : EventId) (value : Object) : H (Option (Pdu × Object)) := do
  match ← getOutlierPduJson plat room id with
  | none => pure none
  | some json =>
    match fromIdVal plat id json room with
    | .error _ => pure none
    | .ok pdu => knownVerdict plat room id value pdu json

/-! ## Signatures -/

/-- An event to go on with, or an answer. -/
inductive Checked where
  | go (how : How) (incoming : Object)
  | answer (pdu : Pdu) (json : Object)

/-- Goes on with the redaction of an event whose content hash is wrong. -/
def redactOutlier (room : RoomId) (id : EventId) (v : RoomVersionId) (value : Object) : H Checked :=
  match plat.redact v value with
  | .ok redacted => pure (.go .validated redacted)
  | .error _ => do
    -- `mark_redaction_failure_rejected`
    addPduOutlier plat room id (value.insert "event_id" (.str id))
    markEventRejected plat id .invalidPduFormat
    throw (.request "Redaction failed")

/-- Whether the sender's server has a copy whose content hash is right. -/
def hasPristineCopy (room : RoomId) (id : EventId) (v : RoomVersionId) (server : ServerName) : H Bool := do
  match ← ask plat fun w => w.getEvent server id with
  | some (raw :: _) =>
    match ← (genEventIdCanonicalJson plat room v raw).attempt with
    | .ok (eid, clean) =>
      if eid = id then
        match ← (verifyEventAt plat .handleOutlier room v id clean).attempt with
        | .ok .all => pure true
        | _ => pure false
      else pure false
    | .error _ => pure false
  | _ => pure false

/-- Fetches that copy again; its id is not compared this time. -/
def refetchOutlier (room : RoomId) (id : EventId) (v : RoomVersionId) (value : Object) (server : ServerName) :
    H Checked := do
  match ← ask plat fun w => w.getEvent server id with
  | some (raw :: _) =>
    match ← (genEventIdCanonicalJson plat room v raw).attempt with
    | .ok (_, clean) => do
      note plat (.answered room id clean)
      pure (.go .refetched clean)
    | .error _ => redactOutlier plat room id v value
  | _ => redactOutlier plat room id v value

/-- Known content of an event, in place of a copy with a wrong content hash. -/
def reuseOutlier (room : RoomId) (id : EventId) : H (Option (Pdu × Object)) :=
  Call.act fun s => match s.getPdu plat id, s.eventidPdu id with
    | some pdu, some json =>
      (.ok (some (pdu, plat.reencode json)), (Write.note (.reencoded room id (plat.reencode json))).apply plat s)
    | _, _ => (.ok none, s)

/-- The content hash of an event is wrong, its signatures are right. -/
def recoverOutlier (origin : ServerName) (room : RoomId) (id : EventId) (v : RoomVersionId)
    (original value : Object) :
    H Checked := do
  match ← reuseOutlier plat room id with
  | some (pdu, obj) => do
    lift (checkRoomId plat room pdu)
    note plat (.returned .reused room id original obj)
    pure (.answer pdu obj)
  | none =>
    match senderServer plat value with
    | none => redactOutlier plat room id v value
    | some server =>
      if server = origin then redactOutlier plat room id v value
      else if ← hasPristineCopy plat room id v server then refetchOutlier plat room id v value server
      else redactOutlier plat room id v value

def verifyOutlier (origin : ServerName) (room : RoomId) (id : EventId) (v : RoomVersionId) (skipSigVerify : Bool)
    (original value : Object) : H Checked :=
  if skipSigVerify then pure (.go .skipped value)
  else if plat.bypassedSignatureEvents.contains id then pure (.go .validated value)
  else do
    match ← (verifyEventAt plat .handleOutlier room v id value).attempt with
    | .ok .all => pure (.go .validated value)
    | .ok .signatures => recoverOutlier plat origin room id v original value
    | .error e => do
      addPduOutlier plat room id (value.insert "event_id" (.str id))
      markEventRejected plat id .signatureVerificationFailed
      throw (match e with
        | .request msg => .request ("Signature verification failed for " ++ id ++ ": " ++ msg)
        | e => e)

def attach (id : EventId) (stashed : Option Value) (incoming : Object) : Object :=
  let incoming := incoming.insert "event_id" (.str id)
  match stashed with
  | some (.obj unsigned) =>
    if (cleanUnsigned unsigned).isEmpty then incoming
    else incoming.insert "unsigned" (.obj (cleanUnsigned unsigned))
  | _ => incoming

/-! ## Auth events -/

def rejectOutlier {A : Type} (room : RoomId) (id : EventId) (incoming : Object) (code : RejectionCode) (e : HErr) :
    H A := do
  markEventRejected plat id code
  addPduOutlier plat room id incoming
  throw e

def rejectPoisoned {A : Type} (room : RoomId) (id : EventId) (incoming : Object) (aid : EventId) : H A := do
  markEventRejected plat id .dependsOnRejectedAuthEvent
  addPduOutlier plat room id incoming
  markEventRejected plat id .dependsOnRejectedAuthEvent
  throw (.request ("Event depends on rejected auth event " ++ aid))

def localAuthEvent (room : RoomId) (id : EventId) (incoming : Object) (found : AuthEvents) (aid : EventId) :
    H AuthEvents := do
  if ← authEventPoisons plat aid room then rejectPoisoned plat room id incoming aid
  else if (← read fun s => s.rejection aid) = some .missingAuthEvent then pure found
  else
    match ← read fun s => s.getPduInRoom plat room aid with
    | none => pure found
    | some auth => do
      lift (checkRoomId plat room auth)
      if auth.stateKey.isNone then
        rejectOutlier plat room id incoming .invalidPduFormat
          (.request "Auth event exists locally but is not a state event")
      else pure ((aid, auth) :: found)

/-! ### Missing auth events (`resolve_missing_outlier_auth_events`) -/

/-- One step of the sort of an auth chain: an event is taken from the end of the
queue, and those that only waited for it join the queue. -/
def popAuthChain (chain : List (EventId × (Object × Pdu))) (order : List EventId) (eid : EventId)
    (queue : List EventId) (degree : EventId → Nat) : List EventId × (EventId → Nat) :=
  order.foldl (fun (queue, degree) other =>
    match List.lookup other chain with
    | some (_, pdu) =>
      if pdu.authEvents.contains eid then
        let d := degree other - 1
        (if d = 0 then other :: queue else queue, Function.update degree other d)
      else (queue, degree)
    | none => (queue, degree)) (queue, degree)

def sortAuthChain (chain : List (EventId × (Object × Pdu))) (order : List EventId) : Nat → List EventId →
    (EventId → Nat) → List EventId
  | 0, _, _ => []
  | _ + 1, [], _ => []
  | n + 1, eid :: queue, degree =>
    let next := popAuthChain chain order eid queue degree
    eid :: sortAuthChain chain order n next.1 next.2

def chainDegree (chain : List (EventId × (Object × Pdu))) (eid : EventId) : Nat :=
  match List.lookup eid chain with
  | some (_, pdu) => (pdu.authEvents.filter fun a => (List.lookup a chain).isSome).length
  | none => 0

/-- The sorted chain; the two hash maps are read in orders of their own. -/
def sortedAuthChain (chain : List (EventId × (Object × Pdu))) (degrees order : List EventId) : List EventId :=
  sortAuthChain chain order chain.length (degrees.filter fun eid => chainDegree chain eid = 0).reverse
    (chainDegree chain)

/-- Reads one event of an `/event_auth` response. -/
def readAuthChain (room : RoomId) (v : RoomVersionId) (chain : List (EventId × (Object × Pdu))) (raw : RawPdu) :
    H (List (EventId × (Object × Pdu))) := do
  match ← (genEventIdCanonicalJson plat room v raw).attempt with
  | .error _ => pure chain
  | .ok (eid, value) =>
    match fromIdVal plat eid value room with
    | .error _ => pure chain
    | .ok pdu => match checkRoomId plat room pdu with
      | .error _ => pure chain
      | .ok () => pure ((eid, (value, pdu)) :: chain.filter fun p => p.1 ≠ eid)

def handleAuthChain (recur : EventId → Object → H (Pdu × Object)) (room : RoomId) (id : EventId) (incoming : Object)
    (chain : List (EventId × (Object × Pdu))) (found : AuthEvents) (eid : EventId) : H AuthEvents :=
  match List.lookup eid chain with
  | none => pure found
  | some (value, _) =>
    if (found.get eid).isSome then pure found
    else do
      match ← (recur eid value).attempt with
      | .error _ => pure found
      | .ok (pdu, _) =>
        if pdu.stateKey.isNone then
          rejectOutlier plat room id incoming .invalidPduFormat
            (.request "Auth chain event from /event_auth is not a state event")
        else pure ((pdu.eventId, pdu) :: found)

def fetchAuthChain (recur : EventId → Object → H (Pdu × Object)) (origin : ServerName)
    (room : RoomId) (id : EventId)
    (v : RoomVersionId) (incoming : Object) (found : AuthEvents) : H AuthEvents := do
  match ← ask plat fun w => w.eventAuth origin room id with
  | none => pure found
  | some raws => do
    let chain ← raws.foldlM (readAuthChain plat room v) []
    let degrees ← ask plat fun w => reorder (chain.map (·.1)) (w.order chain.length)
    let order ← ask plat fun w => reorder (chain.map (·.1)) (w.order chain.length)
    let sorted := sortedAuthChain chain degrees order
    sorted.dedup.foldlM (handleAuthChain plat recur room id incoming chain) found

def stillMissing (room : RoomId) (id : EventId) (incoming : Object) (found : AuthEvents) (missing : List EventId)
    (aid : EventId) : H (List EventId) := do
  let poisoned ← authEventPoisons plat aid room
  if (found.get aid).isSome then pure missing
  else if poisoned then rejectPoisoned plat room id incoming aid
  else pure (missing ++ [aid])

/-- Leaves an event pending. -/
def deferOutlier {A : Type} (room : RoomId) (id : EventId) (incoming : Object) (missing : List EventId) : H A := do
  markEventRejected plat id .missingAuthEvent
  addPduOutlier plat room id incoming
  throw (.missingAuthEvents missing)

def refuseMissing (room : RoomId) (id : EventId) (incoming : Object) (_ : Unit) (mid : EventId) : H Unit := do
  if ← authEventPoisons plat mid room then
    rejectOutlier plat room id incoming .dependsOnRejectedAuthEvent
      (.request ("Event depends on rejected auth event " ++ mid))
  else pure ()

def resolveMissingOutlierAuthEvents (recur : EventId → Object → H (Pdu × Object)) (origin : ServerName)
    (room : RoomId) (id : EventId) (v : RoomVersionId) (pdu : Pdu) (incoming : Object) (missing : List EventId)
    (found : AuthEvents) (stage : AuthRecoveryStage) : H AuthEvents := do
  missing.foldlM (refuseMissing plat room id incoming) ()
  if 5 < missing.length || stage = .beforeStateIds then deferOutlier plat room id incoming missing
  else
    let found ← fetchAuthChain plat recur origin room id v incoming found
    let still ← pdu.authEvents.foldlM (stillMissing plat room id incoming found) []
    if still.isEmpty then pure found else deferOutlier plat room id incoming still

def completeAuthEvents (recur : EventId → Object → H (Pdu × Object)) (origin : ServerName) (room : RoomId)
    (id : EventId) (v : RoomVersionId) (pdu : Pdu) (incoming : Object) (found : AuthEvents)
    (stage : AuthRecoveryStage) : H AuthEvents :=
  let missing := pdu.authEvents.filter fun aid => (found.get aid).isNone
  if missing.isEmpty then pure found
  else resolveMissingOutlierAuthEvents plat recur origin room id v pdu incoming missing found stage

/-! ### Auth events by key -/

def keyAuthEvent (room : RoomId) (id : EventId) (incoming : Object) (found : AuthEvents)
    (byKey : List (TypeStateKey × Pdu)) (aid : EventId) : H (List (TypeStateKey × Pdu)) := do
  if ← authEventPoisons plat aid room then rejectPoisoned plat room id incoming aid
  else
    match found.get aid with
    | none =>
      rejectOutlier plat room id incoming .missingAuthEvent
        (.request ("Could not fetch all auth events for outlier " ++ id ++ ", still missing: " ++ aid))
    | some auth => do
      lift (checkRoomId plat room auth)
      match auth.stateKey with
      | none =>
        rejectOutlier plat room id incoming .invalidPduFormat
          (.request ("Auth event is not a state event: " ++ auth.eventId))
      | some key =>
        if (List.lookup (auth.kind, key) byKey).isSome then
          rejectOutlier plat room id incoming .duplicateAuthEventKey
            (.request ("Auth event's type and state_key combination exists multiple times: " ++ auth.kind.asStr ++
              ", " ++ key))
        else pure (((auth.kind, key), auth) :: byKey)

/-! ## The handler -/

def outlierVersion (create : Option Pdu) (roomVersion : RoomVersionId) : Except HErr RoomVersionId :=
  match create with
  | some create => getRoomVersionId plat create
  | none => .ok roomVersion

/-- `to_room_version(v).room_ids_as_hashes`. -/
def roomIdsAsHashes (v : RoomVersionId) : Bool :=
  match RoomVersion.new v with
  | .ok version => version.roomIdsAsHashes
  | .error _ => false

/-- Everything after the signatures. -/
def authorizeOutlier (recur : EventId → Object → H (Pdu × Object)) (origin : ServerName) (create : Option Pdu)
    (id : EventId) (room : RoomId) (v : RoomVersionId) (stage : AuthRecoveryStage) (how : How)
    (value incoming : Object) : H (Pdu × Object) := do
  match fromIdVal plat id incoming room with
  | .error e => do
    markEventRejected plat id .invalidPduFormat
    throw (match e with
      | .request msg => .request ("Event is not a valid PDU: " ++ msg)
      | e => e)
  | .ok pdu => do
    lift (checkRoomId plat room pdu)
    let found ← pdu.authEvents.foldlM (localAuthEvent plat room id incoming) []
    let found ← completeAuthEvents plat recur origin room id v pdu incoming found stage
    let byKey ← pdu.authEvents.foldlM (keyAuthEvent plat room id incoming found) []
    if pdu.kind ≠ .roomCreate ∧ roomIdsAsHashes v = false ∧
      (List.lookup (EventType.roomCreate, "") byKey).isNone then
      rejectOutlier plat room id incoming .missingCreateEvent
        (.request "Incoming event missing m.room.create in auth events")
    else if !plat.rezzyAuthCheck v pdu (fun key => List.lookup key byKey) create then
      rejectOutlier plat room id incoming .authCheckFailed
        (.request "Event authorisation fails based on event's claimed auth events")
    else do
      addPduOutlier plat room id incoming
      write plat (.accept how room id value incoming)
      pure (pdu, incoming)

/-- `handle_outlier_pdu`, with what it does for the events of an auth chain. -/
def outlierBody (recur : EventId → Object → H (Pdu × Object)) (origin : ServerName) (create : Option Pdu)
    (id : EventId) (room : RoomId) (value : Object) (skipSigVerify : Bool) (roomVersion : RoomVersionId)
    (stage : AuthRecoveryStage) : H (Pdu × Object) := do
  match ← knownOutlier plat room id value with
  | some answer => pure answer
  | none =>
    if !pduFits plat value then do
      addPduOutlier plat room id (value.insert "event_id" (.str id))
      markEventRejected plat id .invalidPduFormat
      throw (.request "PDU is too large")
    else do
      let v ← lift (outlierVersion plat create roomVersion)
      match ← verifyOutlier plat origin room id v skipSigVerify value (value.remove "unsigned") with
      | .answer pdu json => pure (pdu, json)
      | .go how incoming =>
        authorizeOutlier plat recur origin create id room v stage how value
          (attach id (value.get "unsigned") incoming)

/-- The depth is that of nested auth chains; a call is cut off by its deadline
before it reaches the end of it. -/
def handleOutlierPdu (origin : ServerName) (create : Option Pdu) (room : RoomId) (roomVersion : RoomVersionId)
    (stage : AuthRecoveryStage) : Nat → EventId → Object → Bool → H (Pdu × Object)
  | 0, _, _, _ => throw (.database "auth chain nested too deeply")
  | n + 1, id, value, skipSigVerify =>
    outlierBody plat (fun eid val => handleOutlierPdu origin create room roomVersion stage n eid val false) origin
      create id room value skipSigVerify roomVersion stage

end

end Congruent
