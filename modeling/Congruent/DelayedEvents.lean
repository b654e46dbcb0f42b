import Congruent.Machine
import Congruent.SortedMap
import Mathlib.Data.Finset.Basic
import Mathlib.Data.Prod.Lex
import Mathlib.Data.String.Basic

/-!
# Delayed events (`delayed_events`)

The set `scheduled_events` is to ensure that each event is only finalized once: only the
process that removes an id from it may finalize the event. It is in memory, and the worker
fills it from the table of scheduled events when the server starts.
-/

namespace Congruent.DelayedEvents

inductive UpdateAction where
  | restart
  | send
  | cancel
  deriving DecidableEq

inductive DelayedEventStatus where
  | scheduled
  | send
  | cancel
  | error
  deriving DecidableEq

structure StandardErrorBody where
  kind : String
  message : String
  deriving DecidableEq

inductive Error where
  | request (kind message : String) (statusCode : Nat)
  | other (message : String)
  deriving DecidableEq

structure ScheduledDelayedEvent where
  eventType : String
  stateKey : Option String
  content : String
  userId : String
  roomId : String
  runningSince : Nat
  delay : Nat
  deriving DecidableEq

structure FinalizedDelayedEvent where
  event : ScheduledDelayedEvent
  error : Option (StandardErrorBody × Nat)
  eventId : Option String
  finalizedTs : Nat
  deriving DecidableEq

structure DelayedEventData where
  delayId : String
  roomId : String
  eventType : String
  stateKey : Option String
  content : String
  delay : Nat
  runningSince : Nat
  error : Option StandardErrorBody
  eventId : Option String
  finalizedTs : Option Nat
  deriving DecidableEq

def DelayedEventData.status (d : DelayedEventData) : DelayedEventStatus :=
  if d.finalizedTs.isNone then .scheduled
  else if d.eventId.isSome then .send
  else if d.error.isSome then .error
  else .cancel

def ScheduledDelayedEvent.submissionTime (e : ScheduledDelayedEvent) : Nat := e.runningSince + e.delay

def ScheduledDelayedEvent.intoData (e : ScheduledDelayedEvent) (delayId : String) : DelayedEventData :=
  ⟨delayId, e.roomId, e.eventType, e.stateKey, e.content, e.delay, e.runningSince, none, none, none⟩

def FinalizedDelayedEvent.intoData (f : FinalizedDelayedEvent) (delayId : String) : DelayedEventData :=
  { f.event.intoData delayId with
    error := f.error.map (·.1)
    eventId := f.eventId
    finalizedTs := some f.finalizedTs }

def FinalizedDelayedEvent.outcome (f : FinalizedDelayedEvent) : DelayedEventStatus :=
  if f.eventId.isSome then .send
  else if f.error.isSome then .error
  else .cancel

def unknown (message : String) : Error := .request "M_UNKNOWN" message 400

def notFound : Error := .request "M_NOT_FOUND" "not found in database" 400

def recordedError : Error → StandardErrorBody × Nat
  | .request kind message statusCode => (⟨kind, message⟩, statusCode)
  | .other message => (⟨"M_UNKNOWN", message⟩, 409)

/-- The answer of `check_finalized_event_outcome` once it has the row. -/
def checkOutcome (f : FinalizedDelayedEvent) (action : UpdateAction) : Except Error Unit :=
  match action, f.outcome with
  | .send, .send => .ok ()
  | .cancel, .cancel => .ok ()
  | .send, .error =>
    match f.error with
    | some (body, statusCode) =>
      if 100 ≤ statusCode ∧ statusCode < 1000 then
        .error (.request body.kind "The event was already sent, and failed." statusCode)
      else .error (unknown "The event was already sent, and failed for an unknown reason.")
    | none => .error (unknown "The event was already sent, and failed for an unknown reason.")
  | _, _ => .error (unknown "The finalized event outcome does not match the requested action.")

/-! ## Calls -/

inductive Request where
  | queue
  | update (action : UpdateAction)
  /-- The worker's, for an event whose time has come. -/
  | submit
  deriving DecidableEq

/-- What a call does next. -/
inductive Stage where
  -- `queue_delayed_event`
  | putRow (event : ScheduledDelayedEvent)
  | putRelation (event : ScheduledDelayedEvent)
  | enlist (submissionTime : Nat)
  | announce (submissionTime : Nat)
  -- `update_delayed_event`
  | find (action : UpdateAction)
  | putRestarted (event : ScheduledDelayedEvent)
  -- `finalize_delayed_event`
  | claim (event : ScheduledDelayedEvent) (action : UpdateAction) (leaveScheduledOnError : Bool)
  | act (event : ScheduledDelayedEvent) (action : UpdateAction) (leaveScheduledOnError : Bool) (timestamp : Nat)
  | relist (error : Error)
  | record (finalized : FinalizedDelayedEvent) (result : Except Error Unit)
  | removeRow (relation : String × String) (result : Except Error Unit)
  | delRelation (relation : String × String) (result : Except Error Unit)
  -- `check_finalized_event_outcome`, which looks again after a while
  | check (action : UpdateAction)
  | checkAgain (action : UpdateAction)
  | finished (result : Except Error Unit)
  deriving DecidableEq

structure Call where
  delayId : String
  request : Request
  stage : Stage
  deriving DecidableEq

inductive Worker where
  | starting
  /-- The rows are read and pushed on the queue, and the set does not have them yet. -/
  | loading (loadedEvents : List String)
  | working
  | ready (delayId : String)
  | push (submissionTime : Nat) (delayId : String)
  | waiting (k : Nat)
  deriving DecidableEq

abbrev Relation := String ×ₗ String ×ₗ String

structure World where
  delayidScheduleddelayedevent : SortedMap String ScheduledDelayedEvent
  delayidFinalizeddelayedevent : SortedMap String FinalizedDelayedEvent
  userroomdelayid : SortedMap Relation Unit
  scheduledEvents : Finset String
  submissionQueue : List (Nat × String)
  channel : List (Nat × String)
  worker : Worker
  calls : List Call
  /-- The ids drawn so far. -/
  drawn : List String
  /-- The events that the timeline accepted, by their delay id. -/
  timeline : List (String × String)

namespace World

def new : World := ⟨.empty, .empty, .empty, ∅, [], [], .starting, [], [], []⟩

def setStage (s : World) (k : Nat) (c : Call) (stage : Stage) : World :=
  { s with calls := s.calls.set k { c with stage := stage } }

def sentAs (s : World) (delayId : String) : List String :=
  s.timeline.filterMap fun sent => if sent.1 = delayId then some sent.2 else none

def loaded (s : World) : Bool :=
  match s.worker with
  | .starting => false
  | .loading _ => false
  | _ => true

end World

/-! ## Steps -/

/-- The entry that the heap has on top: the earliest, of these the one with the greatest id. -/
def peek : List (Nat × String) → Option (Nat × String)
  | [] => none
  | entry :: rest =>
    match peek rest with
    | none => some entry
    | some top => if top.1 < entry.1 ∨ top.1 = entry.1 ∧ entry.2 < top.2 then some top else some entry

/-- The next step of a call; `sent` is what the timeline answers. -/
def proceed (k : Nat) (now : Nat) (sent : Except Error String) (c : Call) (s : World) : Option World :=
  match c.stage with
  | .putRow event =>
    some { s.setStage k c (.putRelation event) with
      delayidScheduleddelayedevent := s.delayidScheduleddelayedevent.insert c.delayId event }
  | .putRelation event =>
    some { s.setStage k c (.enlist event.submissionTime) with
      userroomdelayid := s.userroomdelayid.insert (toLex (event.userId, toLex (event.roomId, c.delayId))) () }
  | .enlist submissionTime =>
    some { s.setStage k c (.announce submissionTime) with
      scheduledEvents := insert c.delayId s.scheduledEvents }
  | .announce submissionTime =>
    some { s.setStage k c (.finished (.ok ())) with channel := s.channel ++ [(submissionTime, c.delayId)] }
  | .find action =>
    match s.delayidScheduleddelayedevent.get c.delayId with
    | none => some (s.setStage k c (.check action))
    | some event =>
      if action = .restart then some (s.setStage k c (.putRestarted { event with runningSince := now }))
      else some (s.setStage k c (.claim event action true))
  | .putRestarted event =>
    some { s.setStage k c (.finished (.ok ())) with
      delayidScheduleddelayedevent := s.delayidScheduleddelayedevent.insert c.delayId event }
  | .claim event action leaveScheduledOnError =>
    if c.delayId ∈ s.scheduledEvents then
      some { s.setStage k c (.act event action leaveScheduledOnError now) with
        scheduledEvents := s.scheduledEvents.erase c.delayId }
    else some (s.setStage k c (.check action))
  | .act event .send leaveScheduledOnError timestamp =>
    match sent with
    | .ok eventId =>
      some { s.setStage k c (.record ⟨event, none, some eventId, timestamp⟩ (.ok ())) with
        timeline := s.timeline ++ [(c.delayId, eventId)] }
    | .error error =>
      if leaveScheduledOnError then some (s.setStage k c (.relist error))
      else some (s.setStage k c (.record ⟨event, some (recordedError error), none, timestamp⟩ (.error error)))
  | .act event .cancel _ timestamp => some (s.setStage k c (.record ⟨event, none, none, timestamp⟩ (.ok ())))
  -- this method is only called for the two actions above
  | .act _ .restart _ _ => none
  | .relist error =>
    some { s.setStage k c (.finished (.error error)) with scheduledEvents := insert c.delayId s.scheduledEvents }
  | .record finalized result =>
    some { s.setStage k c (.removeRow (finalized.event.userId, finalized.event.roomId) result) with
      delayidFinalizeddelayedevent := s.delayidFinalizeddelayedevent.insert c.delayId finalized }
  | .removeRow relation result =>
    some { s.setStage k c (.delRelation relation result) with
      delayidScheduleddelayedevent := s.delayidScheduleddelayedevent.remove c.delayId }
  | .delRelation relation result =>
    some { s.setStage k c (.finished result) with
      userroomdelayid := s.userroomdelayid.remove (toLex (relation.1, toLex (relation.2, c.delayId))) }
  | .check action =>
    match s.delayidFinalizeddelayedevent.get c.delayId with
    | none => some (s.setStage k c (.checkAgain action))
    | some finalized => some (s.setStage k c (.finished (checkOutcome finalized action)))
  | .checkAgain action =>
    some (s.setStage k c (.finished
      ((s.delayidFinalizeddelayedevent.get c.delayId).elim (.error notFound) (checkOutcome · action))))
  | .finished _ => none

inductive Action where
  | queue (delayId : String) (event : ScheduledDelayedEvent)
  | update (delayId : String) (action : UpdateAction)
  | proceed (k : Nat) (now : Nat) (sent : Except Error String)
  /-- A client goes away, and its call with it. -/
  | drop (k : Nat)
  -- the worker
  | load
  | enroll
  | receive
  | pop
  | submit (now : Nat)
  | push
  | resume
  | crash

def step : Action → World → Option World
  | .queue delayId event, s =>
    some { s with calls := s.calls ++ [⟨delayId, .queue, .putRow event⟩], drawn := delayId :: s.drawn }
  | .update delayId action, s =>
    some { s with calls := s.calls ++ [⟨delayId, .update action, .find action⟩] }
  | .proceed k now sent, s => (s.calls[k]?).bind fun c => proceed k now sent c s
  | .drop k, s =>
    match s.calls[k]? with
    | some ⟨_, .submit, _⟩ => none
    | some c => some (s.setStage k c (.finished (.error (.other "dropped"))))
    | none => none
  | .load, s =>
    match s.worker with
    | .starting =>
      some { s with
        worker := .loading (s.delayidScheduleddelayedevent.entries.map (·.1))
        submissionQueue := s.submissionQueue ++
          s.delayidScheduleddelayedevent.entries.map fun row => (row.2.submissionTime, row.1) }
    | _ => none
  | .enroll, s =>
    match s.worker with
    | .loading loadedEvents =>
      some { s with worker := .working, scheduledEvents := s.scheduledEvents ∪ loadedEvents.toFinset }
    | _ => none
  | .receive, s =>
    match s.worker, s.channel with
    | .working, entry :: channel =>
      some { s with channel := channel, submissionQueue := entry :: s.submissionQueue }
    | _, _ => none
  | .pop, s =>
    match s.worker, peek s.submissionQueue with
    | .working, some entry =>
      some { s with worker := .ready entry.2, submissionQueue := s.submissionQueue.erase entry }
    | _, _ => none
  | .submit now, s =>
    match s.worker with
    | .ready delayId =>
      match s.delayidScheduleddelayedevent.get delayId with
      | none => some { s with worker := .working }
      | some event =>
        if event.submissionTime ≤ now then
          some { s with
            worker := .waiting s.calls.length
            calls := s.calls ++ [⟨delayId, .submit, .claim event .send false⟩] }
        else some { s with worker := .push event.submissionTime delayId }
    | _ => none
  | .push, s =>
    match s.worker with
    | .push submissionTime delayId =>
      some { s with worker := .working, submissionQueue := (submissionTime, delayId) :: s.submissionQueue }
    | _ => none
  | .resume, s =>
    match s.worker with
    | .waiting k =>
      match s.calls[k]? with
      | some ⟨_, _, .finished _⟩ => some { s with worker := .working }
      | _ => none
    | _ => none
  | .crash, s =>
    some { s with scheduledEvents := ∅, submissionQueue := [], channel := [], worker := .starting, calls := [] }

/-- `get_delayed_event`. -/
def getDelayedEvent (s : World) (senderUser delayId : String) : Except Error DelayedEventData :=
  match s.delayidScheduleddelayedevent.get delayId, s.delayidFinalizeddelayedevent.get delayId with
  | _, some finalized =>
    if finalized.event.userId ≠ senderUser then
      .error (.request "M_FORBIDDEN" "You are not authorized to view this delayed event." 400)
    else .ok (finalized.intoData delayId)
  | some scheduled, none =>
    if scheduled.userId ≠ senderUser then
      .error (.request "M_FORBIDDEN" "You are not authorized to view this delayed event." 400)
    else .ok (scheduled.intoData delayId)
  | none, none => .error (.request "M_NOT_FOUND" "No delayed event with this delay_id was found" 400)

end Congruent.DelayedEvents
