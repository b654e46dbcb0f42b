import Congruent.Server

/-!
# What the handlers write

Every change of the stores by an event handler, what it does, and what has
happened before it. The runs of the handlers are paths of such steps.
-/

namespace Congruent

/-! ## Event ids -/

def hasOpaqueEventIds (v : RoomVersionId) : Bool := v = .V1 || v = .V2

def Platform.genEventId (plat : Platform) (v : RoomVersionId) (value : Object) : Except HErr EventId :=
  if hasOpaqueEventIds v then
    match (value.get "event_id").bind Value.asStr with
    | none => .error (.request "Event has no event_id, which room versions 1 and 2 need")
    | some id => match plat.codec.parseEventId id with
      | some id => .ok id
      | none => .error (.request "invalid event id")
  else match plat.referenceHash v value with
    | .error e => .error (.badServerResponse e)
    | .ok hash => match plat.codec.parseEventId ("$" ++ hash) with
      | some id => .ok id
      | none => .error (.request "invalid event id")

/-! ## Forward extremities (`extremities.rs`, `set_forward_extremities`) -/

def calculateForwardExtremities (current : List EventId) (incoming : EventId) (prevEvents : List EventId)
    (softFail : Bool) (isReferenced : EventId → Bool) (isForwardExtremity : Bool) : List EventId :=
  if softFail then current
  else
    let kept := current.filter fun id => !prevEvents.contains id && !isReferenced id
    if isForwardExtremity || kept.isEmpty then kept ++ [incoming] else kept

namespace Server

def mayBeTip (s : Server) (trusted id : EventId) : Bool :=
  id = trusted || (!(s.isEventRejected id || s.softFailed id) && (s.eventidMetadata id).any fun m => !m.isOutlier)

/-- The tips stored for a room. They are kept under their ids, in order. -/
def setForwardExtremities (s : Server) (plat : Platform) (room : RoomId) (ids : List EventId) (trusted : EventId) :
    List EventId :=
  let eligible := ids.filter (s.mayBeTip trusted)
  if eligible.isEmpty then s.pduleaves room
  else ((eligible.drop (eligible.length - plat.maxForwardExtremities)).dedup).insertionSort (· ≤ ·)

/-- The event an appended state event replaces. -/
def prevState (s : Server) (plat : Platform) (room : RoomId) (pdu : Pdu) (prevRoot : Option Root) : Option Pdu :=
  pdu.stateKey.bind fun key => prevRoot.bind fun root => (root.lookup (pdu.kind, key)).bind
    (s.getPduInRoom plat room)

end Server

def withPrevState (pdu : Pdu) (prev : Option Pdu) (json : Object) : Object :=
  match pdu.stateKey, (json.get "unsigned").getD (.obj []) with
  | some _, .obj unsigned => json.insert "unsigned" (.obj (match prev with
    | none => unsigned
    | some p => (Object.insert (Object.insert (Object.insert unsigned "prev_content" p.content) "prev_sender"
        (.str p.sender)) "replaces_state" (.str p.eventId))))
  | _, _ => json

theorem withPrevState_strip (pdu : Pdu) (prev : Option Pdu) (json : Object) :
    (withPrevState pdu prev json).strip = json.strip := by
  unfold withPrevState
  split
  · exact Object.strip_insert_unsigned _ _
  · rfl

/-! ## Writes -/

structure Append where
  call : Nat
  room : RoomId
  pdu : Pdu
  json : Object
  isTimelineEvent : Bool
  root : Root
  prevRoot : Option Root
  advanceCurrentState : Bool

inductive Write where
  /-- A moment passes. -/
  | tick
  | note (m : Mark)
  | addPduOutlier (room : RoomId) (id : EventId) (json : Object)
  | markEventRejected (id : EventId) (code : RejectionCode)
  /-- `take_retry_if_rejection_retryable`, when it does clear the rejection. -/
  | takeRetry (id : EventId)
  /-- All checks of `handle_outlier_pdu` passed. -/
  | accept (how : How) (room : RoomId) (id : EventId) (value json : Object)
  /-- The retry of a rejected outlier clears its rejection. -/
  | unreject (call : Nat) (id : EventId)
  /-- State resolution clears a rejection of a timeline event. -/
  | clearStale (id : EventId)
  | softFail (call : Nat) (room : RoomId) (id : EventId) (json : Object) (isTimelineEvent : Bool) (root : Root)
  | append (a : Append)

namespace Server

def setRejection (s : Server) (id : EventId) (code : Option RejectionCode) : Server :=
  { s with rejection := Function.update s.rejection id code }

def addPduOutlier (s : Server) (plat : Platform) (room : RoomId) (id : EventId) (json : Object) : Server :=
  if (s.eventidMetadata id).any fun m => !m.isOutlier then s
  else
    let json := json.insert "event_id" (.str id)
    { s with
      eventidPdu := Function.update s.eventidPdu id (some json)
      eventidMetadata := match plat.decodePdu json with
        | .ok _ => Function.update s.eventidMetadata id (some ⟨true, none⟩)
        | .error _ => s.eventidMetadata
      log := .stored room id json :: s.log }

/-- A rejection for good is not replaced by one that may be retried. -/
def markEventRejected (s : Server) (id : EventId) (code : RejectionCode) : Server :=
  if (s.rejection id).any (fun old => !old.isRetryable && code.isRetryable) then s else
    s.setRejection id (some code)

def appendPdu (s : Server) (plat : Platform) (a : Append) : Server :=
  let id := a.pdu.eventId
  let json := withPrevState a.pdu (s.prevState plat a.room a.pdu a.prevRoot) a.json
  let leaves := calculateForwardExtremities (s.pduleaves a.room) id a.pdu.prevEvents false (s.referenced a.room)
    a.isTimelineEvent
  let isState := a.pdu.stateKey.isSome
  { s with
    referenced := Function.update s.referenced a.room fun x => a.pdu.prevEvents.contains x || s.referenced a.room x
    pduleaves := Function.update s.pduleaves a.room (s.setForwardExtremities plat a.room leaves id)
    eventidPdu := Function.update s.eventidPdu id (some json)
    eventidMetadata := Function.update s.eventidMetadata id (some ⟨false, some s.count⟩)
    count := s.count + 1
    eventRoot := Function.update s.eventRoot id (some a.root)
    roomRoot := if isState || a.advanceCurrentState then Function.update s.roomRoot a.room (some a.root)
      else s.roomRoot
    rejection := Function.update s.rejection id none
    log := .appended a.call a.room id a.pdu.prevEvents json a.isTimelineEvent :: .stored a.room id json ::
      .tips a.room (s.pduleaves a.room) ((s.pduleaves a.room).filter fun x => !s.mayBeTip id x) :: s.log }

end Server

def Write.apply (plat : Platform) (w : Write) (s : Server) : Server :=
  match w with
  | tick => { s with clock := s.clock + 1 }
  | note m => { s with log := m :: s.log }
  | addPduOutlier room id json => s.addPduOutlier plat room id json
  | markEventRejected id code => s.markEventRejected id code
  | takeRetry id => s.setRejection id none
  | accept how room id value json =>
    { s.setRejection id none with log := .returned how room id value json :: s.log }
  | unreject call id => { s.setRejection id none with log := .unrejected call id :: s.log }
  | clearStale id => s.setRejection id none
  | softFail _ _ id _ _ root =>
    { s.setRejection id none with
      eventRoot := Function.update s.eventRoot id (some root), softFailed := Function.update s.softFailed id true }
  | append a => s.appendPdu plat a

/-! ## When they are made -/

section
variable (plat : Platform)

def Kept (v : RoomVersionId) (value : Object) (result : Verified) (json : Object) : Prop :=
  match result with
  | .all => SameBody json value
  | .signatures => ∃ x, plat.redact v value = .ok x ∧ SameBody json x

def Vouched (counts : Site → Prop) (log : List Mark) (id : EventId) (json : Object) : Prop :=
  id ∈ plat.bypassedSignatureEvents ∨ ∃ site room v value result, counts site ∧
    .verified site room v id value result ∈ log ∧ Kept plat v value result json

/-- JSON taken for an event from a peer or from the store. -/
inductive Taken (log : List Mark) (room : RoomId) (id : EventId) (json : Object) : Prop
  | received (v : RoomVersionId) (h : .received room v id json ∈ log)
  | answered (h : .answered room id json ∈ log)
  | readBack (h : .readBack room id json ∈ log)
  | reencoded (h : .reencoded room id json ∈ log)

def Traced (log : List Mark) (room : RoomId) (id : EventId) (json : Object) : Prop :=
  ∃ x, Taken log room id x ∧ (SameBody json x ∨
    ∃ site v r, .verified site room v id (x.remove "unsigned") .signatures ∈ log ∧
      plat.redact v (x.remove "unsigned") = .ok r ∧ SameBody json r)

def Derived (value json : Object) : Prop :=
  SameBody json value ∨ ∃ v x, plat.redact v (value.remove "unsigned") = .ok x ∧ SameBody json x

def senderServer (value : Object) : Option ServerName :=
  (((value.get "sender").bind Value.asStr).bind plat.codec.parseUserId).map plat.codec.userServerName

/-- How the delivered event of a call comes to be upgraded. -/
inductive Entered (log : List Mark) (call : Nat) (room : RoomId) (id : EventId) (json : Object) : Prop
  | delivered (origin : ServerName) (value : Object) (how : How) (hd : .delivered call origin room id value ∈ log)
      (hn : .notDisabled call room ∈ log) (ho : .aclAllowed call room origin ∈ log)
      (hs : ∀ server, senderServer plat value = some server → .aclAllowed call room server ∈ log)
      (hhow : how ≠ .skipped) (hr : .returned how room id value json ∈ log)
  /-- From the retry of a rejected outlier. -/
  | retried (origin : ServerName) (value : Object) (hd : .delivered call origin room id value ∈ log)
      (hr : .retried call room id json ∈ log)

/-- How an event comes to be upgraded in a call: the delivered one as a timeline
event, its predecessors not. -/
inductive Handed (log : List Mark) (call : Nat) (room : RoomId) (id : EventId) (json : Object) : Bool → Prop
  | entered (h : Entered plat log call room id json) : Handed log call room id json true
  | fetched (id' : EventId) (json' : Object) (he : Entered plat log call room id' json')
      (value : Object) (how : How)
      (hhow : how ≠ .skipped) (hr : .returned how room id value json ∈ log) : Handed log call room id json false
  /-- A stored predecessor. -/
  | promoted (id' : EventId) (json' : Object) (he : Entered plat log call room id' json')
      (hp : .promoted room id json ∈ log) : Handed log call room id json false

/-- A delivery found that all a rejected outlier depends on is there. -/
def DepsFound (log : List Mark) (call : Nat) (id : EventId) : Prop :=
  ∃ authEvents prevEvents, .considered call id authEvents prevEvents ∈ log ∧
    (∀ aid ∈ authEvents, .authAccepted call aid ∈ log) ∧ ∀ prev ∈ prevEvents, .prevInTimeline call prev ∈ log

theorem DepsFound.mono {log log' : List Mark} {call : Nat} {id : EventId} (h : DepsFound log call id)
    (hl : ∀ m ∈ log, m ∈ log') : DepsFound log' call id := by
  obtain ⟨authEvents, prevEvents, hc, ha, hp⟩ := h
  exact ⟨authEvents, prevEvents, hl _ hc, fun aid h => hl _ (ha aid h), fun prev h => hl _ (hp prev h)⟩

/-- When `handle_outlier_pdu` may answer. -/
def How.Allowed (s : Server) (room : RoomId) (id : EventId) (value json : Object) : How → Prop
  | validated => Vouched plat (· = .handleOutlier) s.log id json ∧ Derived plat value json
  | refetched => ∃ x, .answered room id x ∈ s.log ∧ SameBody json x
  | skipped => Vouched plat (fun _ => True) s.log id json
  | known => .readBack room id json ∈ s.log ∧ s.rejection id = none
  | reused => .reencoded room id json ∈ s.log

def Mark.Allowed (s : Server) : Mark → Prop
  | received _ v id json => plat.genEventId v json = .ok id
  | answered .. => True
  | readBack _ id json => s.eventidPdu id = some json
  | reencoded _ id json => ∃ x, s.eventidPdu id = some x ∧ json = plat.reencode x
  | verified _ _ v _ json result => (s.world s.clock).verify v json = .ok result
  | returned how room id value json => (how = .known ∨ how = .reused) ∧ how.Allowed plat s room id value json
  | considered _ id _ _ => s.isEventAccepted id = false
  | authAccepted _ id => s.isEventAccepted id
  | prevInTimeline _ id => (s.getPduId id).isSome
  | unrejected .. => False
  | retried call room id json => .unrejected call id ∈ s.log ∧ .readBack room id json ∈ s.log
  | eligible id => (s.rejection id).all RejectionCode.isRetryable
  | promoted room id json => .eligible id ∈ s.log ∧ .readBack room id json ∈ s.log
  | delivered .. => True
  | notDisabled call room => (s.world s.clock).isDisabled room = false ∧
      ∃ origin id value, .delivered call origin room id value ∈ s.log
  | aclAllowed call room server => s.aclCheck plat server room = true ∧
      ∃ origin id value, .delivered call origin room id value ∈ s.log
  | stored .. => False
  | tips .. => False
  | appended .. => False

def Write.Allowed (w : Write) (s : Server) : Prop :=
  match w with
  | tick => True
  | note m => m.Allowed plat s
  | addPduOutlier room id json => Traced plat s.log room id json
  | markEventRejected _ _ => True
  | takeRetry id => (s.rejection id).any RejectionCode.isRetryable
  | accept how room id value json =>
    (how ≠ .known ∧ how ≠ .reused) ∧ how.Allowed plat s room id value json
  | unreject call id => DepsFound s.log call id
  | clearStale id => (s.getPduId id).isSome
  | softFail call room id json flag _ => Handed plat s.log call room id json flag
  | append a => Handed plat s.log a.call a.room a.pdu.eventId a.json a.isTimelineEvent ∧
      Traced plat s.log a.room a.pdu.eventId a.json ∧ s.getPduId a.pdu.eventId = none

inductive Step : Server → Server → Prop
  | write (s : Server) (w : Write) (h : w.Allowed plat s) : Step s (w.apply plat s)

abbrev Path : Server → Server → Prop := Relation.ReflTransGen (Step plat)

end

/-! ## The log grows -/

def Server.appendedJson (s : Server) (plat : Platform) (a : Append) : Object :=
  withPrevState a.pdu (s.prevState plat a.room a.pdu a.prevRoot) a.json

def Write.marks (plat : Platform) (w : Write) (s : Server) : List Mark :=
  match w with
  | note m => [m]
  | addPduOutlier room id json =>
    if (s.eventidMetadata id).any fun m => !m.isOutlier then [] else
      [.stored room id (json.insert "event_id" (.str id))]
  | accept how room id value json => [.returned how room id value json]
  | unreject call id => [.unrejected call id]
  | append a => [.appended a.call a.room a.pdu.eventId a.pdu.prevEvents (s.appendedJson plat a) a.isTimelineEvent,
      .stored a.room a.pdu.eventId (s.appendedJson plat a),
      .tips a.room (s.pduleaves a.room) ((s.pduleaves a.room).filter fun x => !s.mayBeTip a.pdu.eventId x)]
  | _ => []

section
variable {plat : Platform} {s s' : Server} {m : Mark}

theorem Write.apply_log (w : Write) : (w.apply plat s).log = w.marks plat s ++ s.log := by
  cases w with
  | addPduOutlier room id json =>
    show (s.addPduOutlier plat room id json).log = (if _ then _ else _) ++ s.log
    unfold Server.addPduOutlier
    split <;> rfl
  | markEventRejected id code =>
    show (s.markEventRejected id code).log = _
    unfold Server.markEventRejected
    split <;> rfl
  | _ => rfl

theorem Step.log (h : Step plat s s') (hm : m ∈ s.log) : m ∈ s'.log := by
  cases h with
  | write w _ =>
    rw [w.apply_log]
    exact List.mem_append_right _ hm

theorem Path.log (h : Path plat s s') (hm : m ∈ s.log) : m ∈ s'.log := by
  induction h with
  | refl => exact hm
  | tail _ hst ih => exact hst.log ih

/-- Writes made outside the room's lock. -/
def Write.quiet : Write → Bool
  | softFail .. | append _ => false
  | _ => true

/-- Relations along which the log grows. -/
class Grows (T : Server → Server → Prop) : Prop where
  log {s s' : Server} {m : Mark} : T s s' → m ∈ s.log → m ∈ s'.log

/-- Relations that the writes outside the room's lock belong to. -/
class Admits (plat : Platform) (T : Server → Server → Prop) [Grows T] : Prop where
  write {s : Server} (w : Write) : w.quiet = true → w.Allowed plat s → T s (w.apply plat s)

instance : Grows (Step plat) := ⟨fun h hm => h.log hm⟩

instance : Admits plat (Step plat) := ⟨fun w _ h => .write _ w h⟩

theorem Grows.path {T : Server → Server → Prop} [Grows T] (h : Relation.ReflTransGen T s s')
    (hm : m ∈ s.log) : m ∈ s'.log := by
  induction h with
  | refl => exact hm
  | tail _ hst ih => exact Grows.log hst ih

theorem update_isSome {A B : Type} [DecidableEq A] {f : A → Option B} {a x : A} (b : B) (h : (f x).isSome) :
    (Function.update f a (some b) x).isSome := by
  by_cases hx : x = a
  · simp [hx]
  · simpa [Function.update_of_ne hx] using h

theorem Step.pduExists (h : Step plat s s') {id : EventId} (hs : s.pduExists id) : s'.pduExists id := by
  cases h with
  | write w _ =>
    cases w with
    | addPduOutlier room x json =>
      show (s.addPduOutlier plat room x json).pduExists id
      unfold Server.addPduOutlier
      split
      · exact hs
      · exact update_isSome _ hs
    | markEventRejected x code =>
      show (s.markEventRejected x code).pduExists id
      unfold Server.markEventRejected
      split <;> exact hs
    | append a => exact update_isSome _ hs
    | note m' => exact hs
    | accept how room x value json => exact hs
    | unreject call x => exact hs
    | tick => exact hs
    | takeRetry x => exact hs
    | clearStale x => exact hs
    | softFail call room x json flag root => exact hs

theorem Path.pduExists (h : Path plat s s') {id : EventId} (hs : s.pduExists id) : s'.pduExists id := by
  induction h with
  | refl => exact hs
  | tail _ hst ih => exact hst.pduExists ih

theorem Taken.mono {l l' : List Mark} (h : ∀ m ∈ l, m ∈ l') {room : RoomId} {id : EventId} {json : Object}
    (ht : Taken l room id json) : Taken l' room id json := by
  cases ht with
  | received v hm => exact .received v (h _ hm)
  | answered hm => exact .answered (h _ hm)
  | readBack hm => exact .readBack (h _ hm)
  | reencoded hm => exact .reencoded (h _ hm)

theorem Traced.mono {l l' : List Mark} (h : ∀ m ∈ l, m ∈ l') {room : RoomId} {id : EventId} {json : Object}
    (ht : Traced plat l room id json) : Traced plat l' room id json := by
  obtain ⟨x, hx, hj⟩ := ht
  refine ⟨x, hx.mono h, hj.imp_right fun ⟨site, v, r, hv, hr⟩ => ⟨site, v, r, h _ hv, hr⟩⟩

theorem Vouched.mono {counts : Site → Prop} {l l' : List Mark} (h : ∀ m ∈ l, m ∈ l') {id : EventId}
    {json : Object} (hv : Vouched plat counts l id json) : Vouched plat counts l' id json :=
  hv.imp_right fun ⟨site, room, v, value, result, hc, hm, hk⟩ => ⟨site, room, v, value, result, hc, h _ hm, hk⟩

theorem Taken.traced {l : List Mark} {room : RoomId} {id : EventId} {json : Object} (h : Taken l room id json) :
    Traced plat l room id json :=
  ⟨json, h, .inl rfl⟩

theorem Traced.same {l : List Mark} {room : RoomId} {id : EventId} {json json' : Object}
    (h : Traced plat l room id json) (hs : SameBody json' json) : Traced plat l room id json' := by
  obtain ⟨x, hx, hj⟩ := h
  refine ⟨x, hx, hj.imp (fun hb => hs.trans hb) fun ⟨site, v, r, hv, hr, hb⟩ => ⟨site, v, r, hv, hr, hs.trans hb⟩⟩

end

end Congruent
