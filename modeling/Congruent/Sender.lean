import Mathlib.Data.List.Sort
import Mathlib.Data.List.Lex
import Congruent.Machine

/-!
# The sender of one destination (`sending/sender.rs`, `sending/data.rs`)

All that the worker, the producers, the abort handshake and the spawned tasks keep
for one destination. A step is what one of them does between two awaits.
-/

namespace Congruent

/-! ## Data -/

inductive DestinationKind where
  | federation
  | appservice
  | push
  deriving DecidableEq, Repr

/-- A queued event with its key: the words of a PDU id, or the count of an EDU. -/
inductive Row where
  | pdu (id : List Nat)
  | edu (count : Nat) (json : String)
  deriving DecidableEq, Repr

def Row.key : Row → List Nat
  | pdu id => id
  | edu count _ => [count]

def Row.isPdu : Row → Bool
  | pdu _ => true
  | edu .. => false

/-- A table of the destination, in the order of its keys. -/
abbrev RowTable := List Row

def RowTable.put (t : RowTable) (r : Row) : RowTable :=
  if r ∈ t then t else t.orderedInsert (fun a b => a.key ≤ b.key) r

def RowTable.putAll (t : RowTable) (rows : List Row) : RowTable := rows.foldl RowTable.put t

def RowTable.removeAll (t : RowTable) (rows : List Row) : RowTable := t.filter (· ∉ rows)

/-- A message of the worker's channel. A flush has no queue key. -/
inductive Msg where
  | event (r : Row)
  | flush
  | abortAck
  deriving DecidableEq, Repr

inductive TransactionStatus where
  | running
  | failed (tries : Nat)
  | retrying (tries : Nat)
  | cooldown
  deriving DecidableEq, Repr

/-- How far a send future has got. -/
inductive Travel where
  | waiting
  | building
  | sent
  | done (ok : Bool)
  deriving DecidableEq, Repr

/-- A send future: the generation it is bound to, the rows it was built from, how
many selected EDUs it has besides, and the generation its rows were read under. -/
structure Txn where
  epoch : Option Nat
  rows : List Row
  edus : Nat
  selected : Nat
  travel : Travel := .waiting
  deriving DecidableEq, Repr

/-- The rows a handler carries over an await. -/
structure Selection where
  epoch : Option Nat
  rows : List Row
  selected : Nat
  deriving DecidableEq, Repr

/-- Where the worker stands: at rest, or at an await of a handler. -/
inductive Phase where
  | starting
  | recovered (rows : List Row) (selected : Nat)
  | idle
  | flushQueued (epoch : Option Nat)
  | flushReliable (b : Selection)
  | retry (b : Selection)
  | activate (b : Selection)
  | edus (b : Selection)
  | dropActive
  | okReliable (epoch : Option Nat)
  | okActive (epoch : Option Nat)
  | okQueued (epoch : Option Nat)
  | okScan (b : Selection)
  | okActivate (b : Selection)
  | finishing
  | finishReliable
  | finishActive
  deriving DecidableEq, Repr

/-- Start-up has read rows and not built their transaction. -/
def Phase.recovers : Phase → Bool
  | .recovered _ _ => true
  | _ => false

/-- Where `abort_destination` stands: its table sweeps follow the worker's answer. -/
inductive AbortTask where
  | idle
  | waiting
  | clearActive
  | clearQueued
  | clearReliable
  | clearActiveAgain
  deriving DecidableEq, Repr

inductive SendTable where
  | queued
  | reliable
  | active
  deriving DecidableEq, Repr

/-- `accepted` (the rows of answered transactions) and `returned` (an abort has
returned and was not lifted) are for the statements only. -/
structure Sender where
  queued : RowTable := []
  reliable : RowTable := []
  active : RowTable := []
  count : Nat := 0
  aborted : Bool := false
  epoch : Nat := 0
  channel : List Msg := []
  status : Option TransactionStatus := none
  flight : List Txn := []
  phase : Phase := .starting
  cleanupsActive : Nat := 0
  cleanupsQueued : Nat := 0
  task : AbortTask := .idle
  returned : Bool := false
  accepted : List Row := []
  deriving DecidableEq

/-- `readable`: the PDU is in the timeline, the EDU is valid JSON. -/
structure SenderConfig where
  kind : DestinationKind
  maxAttempts : Nat
  readable : Row → Bool

/-- A federation destination without a retry limit. -/
def SenderConfig.plain : SenderConfig := ⟨.federation, 0, fun _ => true⟩

/-- What a handler meets: the clocks of the backoff and of the cooldown, and how
many EDUs `select_edus` finds. -/
structure Tick where
  backoff : Bool := false
  cooling : Bool := false
  edus : Nat := 0
  deriving DecidableEq, Repr

def dequeueLimit : Nat := 48

def u32Max : Nat := 4294967295

def u64Max : Nat := 18446744073709551615

def Selection.extend (b : Selection) (t : RowTable) : Selection :=
  { b with rows := b.rows ++ t.take (dequeueLimit - b.rows.length) }

/-- Something of the transaction can be sent. -/
def Txn.sendable (cfg : SenderConfig) (T : Txn) : Bool := T.rows.any cfg.readable || T.edus != 0

namespace Sender

variable (cfg : SenderConfig)

/-! ## Tables -/

def queueRequest (t : SendTable) (r : Row) (s : Sender) : Sender :=
  match t with
  | .queued => { s with queued := s.queued.put r }
  | .reliable => { s with reliable := s.reliable.put r }
  | .active => { s with active := s.active.put r }

/-- One sweep of `clear_destination_queue`, `delete_all_requests_for` and the like. -/
def clear (t : SendTable) (s : Sender) : Sender :=
  match t with
  | .queued => { s with queued := [] }
  | .reliable => { s with reliable := [] }
  | .active => { s with active := [] }

def deleteRequestKeys (rows : List Row) (s : Sender) : Sender :=
  { s with
    active := s.active.removeAll rows
    queued := s.queued.removeAll rows
    reliable := s.reliable.removeAll rows }

def deleteReliableRequestsForActive (s : Sender) : Sender :=
  { s with reliable := s.reliable.removeAll s.active }

def markAsActive (rows : List Row) (s : Sender) : Sender :=
  { s with
    active := s.active.putAll rows
    queued := s.queued.removeAll rows }

/-! ## Generations -/

/-- A result of another generation is stale. Only federation has generations. -/
def isCurrent (s : Sender) (epoch : Option Nat) : Bool :=
  epoch.all (· == s.epoch)

/-- `mark_as_active_if_current`: the check and the writes under the gate. -/
def markAsActiveIfCurrent (epoch : Option Nat) (rows : List Row) (s : Sender) : Option Sender :=
  if cfg.kind = .federation then
    if epoch = some s.epoch ∧ !s.aborted then some (s.markAsActive rows) else none
  else some (s.markAsActive rows)

/-- `send_events`: a federation future is bound to the given generation, or to the
one it finds. -/
def sendEvents (epoch : Option Nat) (rows : List Row) (edus selected : Nat) (s : Sender) : Sender :=
  { s with
    flight := s.flight ++
      [⟨if cfg.kind = .federation then some (epoch.getD s.epoch) else none, rows, edus, selected, .waiting⟩] }

/-! ## Producers -/

/-- The destination's part of `send_pdu_servers`, `send_edu_server` and
`send_reliable_edu_server`: the check, the row and the message under the gate. -/
def send (t : SendTable) (r : Row) (s : Sender) : Sender :=
  if s.aborted then s
  else
    { s.queueRequest t r with channel := s.channel ++ [.event r] }

def sendEdu (t : SendTable) (json : String) (s : Sender) : Sender :=
  if s.aborted then s else ({ s with count := s.count + 1 }).send t (.edu (s.count + 1) json)

/-! ## Start-up -/

/-- `startup_netburst`: the rows of the destination are read, those over the limit
are dropped. -/
def startupNetburst (netburst : Bool) (keep : Nat) (s : Sender) : Sender :=
  { s with
    active := s.active.take keep
    phase := if netburst && !(s.active.take keep).isEmpty then .recovered (s.active.take keep) s.epoch else .idle }

/-- `flush_current!`, once the stream has moved past the destination. -/
def flushCurrent (rows : List Row) (selected : Nat) (s : Sender) : Sender :=
  ({ s with status := some .running, phase := .idle }).sendEvents cfg none rows 0 selected

/-! ## Requests -/

/-- Whether the events may be sent, whether an earlier transaction is to be retried,
and the new status. -/
def selectEventsCurrent (t : Tick) (hasPdu : Bool) : Option TransactionStatus → Bool × Bool × TransactionStatus
  | none => (true, false, .running)
  | some (.failed tries) =>
    if t.backoff && cfg.kind != .appservice then (false, false, .failed tries)
    else (true, true, .retrying tries)
  | some .running => (false, false, .running)
  | some (.retrying tries) => (false, false, .retrying tries)
  | some .cooldown => if !hasPdu && t.cooling then (false, false, .cooldown) else (true, false, .running)

/-- The end of `handle_request`, with the selected events. -/
def startSelected (b : Selection) (edus : Nat) (s : Sender) : Sender :=
  if s.aborted || !s.isCurrent b.epoch then { s with status := none, phase := .idle }
  else if b.rows.isEmpty && edus == 0 then { s with status := none, phase := .idle }
  else ({ s with phase := .idle }).sendEvents cfg b.epoch b.rows edus b.selected

/-- The rest of `select_events`: compose the next transaction. -/
def compose (b : Selection) (s : Sender) : Sender :=
  if !b.rows.isEmpty then { s with phase := .activate b }
  else if cfg.kind = .federation then { s with phase := .edus b }
  else s.startSelected cfg b 0

def selectEvents (t : Tick) (b : Selection) (s : Sender) : Sender :=
  match selectEventsCurrent cfg t (b.rows.any Row.isPdu) s.status with
  | (false, _, status) => { s with status := some status, phase := .idle }
  | (true, true, status) => { s with status := some status, phase := .retry b }
  | (true, false, status) => ({ s with status := some status }).compose cfg b

/-- The generation of new work. -/
def newEpoch (s : Sender) : Option Nat := if cfg.kind = .federation then some s.epoch else none

/-- `handle_request`, up to its first await. -/
def handleRequest (t : Tick) (m : Msg) (s : Sender) : Sender :=
  match m with
  | .abortAck => { s with status := none }
  | .flush =>
    if s.aborted then { s with status := none }
    else { s with phase := .flushQueued (s.newEpoch cfg) }
  | .event r =>
    if s.aborted then ({ s with status := none }).deleteRequestKeys [r]
    else s.selectEvents cfg t ⟨s.newEpoch cfg, [r], s.epoch⟩

/-! ## Responses -/

/-- Tries after a failure. -/
def failedTries : Option TransactionStatus → Nat
  | some (.retrying tries) => min (tries + 1) u32Max
  | some (.failed tries) => min (tries + 1) u32Max
  | _ => 1

/-- A missing status stays missing; at the retry limit a cleanup is spawned. -/
def handleResponseErr (s : Sender) : Sender :=
  if 0 < cfg.maxAttempts ∧ cfg.maxAttempts ≤ failedTries s.status then
    { s with status := none, cleanupsActive := s.cleanupsActive + 1 }
  else { s with status := s.status.map fun _ => .failed (failedTries s.status) }

/-- `handle_response` of a future taken from the worker, up to its first await. -/
def handleResponse (epoch : Option Nat) (ok : Bool) (s : Sender) : Sender :=
  if !s.isCurrent epoch then s
  else if s.aborted then { s with status := none, phase := .dropActive }
  else if ok then { s with phase := .okReliable epoch }
  else s.handleResponseErr cfg

/-- The end of `handle_response_ok`, with the next events. -/
def startNext (b : Selection) (s : Sender) : Sender :=
  if !b.rows.isEmpty && b.rows.any Row.isPdu then { s with phase := .okActivate b }
  else if b.rows.isEmpty then { s with status := none, phase := .idle }
  else { s with status := some .cooldown, phase := .idle }

/-- `finish_responses`: only a success of the current generation counts. -/
def finishResponse (epoch : Option Nat) (ok : Bool) (s : Sender) : Sender :=
  if ok && (cfg.kind != .federation || epoch == some s.epoch) then { s with phase := .finishReliable } else s

/-! ## The worker at an await -/

/-- The worker goes on from where it stands. -/
def work (t : Tick) (s : Sender) : Option Sender :=
  match s.phase with
  | .starting | .idle | .finishing => none
  | .recovered rows selected => some (s.flushCurrent cfg rows selected)
  | .flushQueued epoch => some { s with phase := .flushReliable (Selection.extend ⟨epoch, [], s.epoch⟩ s.queued) }
  | .flushReliable b => some (s.selectEvents cfg t (Selection.extend b s.reliable))
  | .retry b =>
    if s.active.isEmpty then some (s.compose cfg b)
    else some (s.startSelected cfg ⟨b.epoch, s.active, s.epoch⟩ 0)
  | .activate b =>
    match s.markAsActiveIfCurrent cfg b.epoch b.rows with
    | none => some { s with phase := .idle }
    | some s' => some (if cfg.kind = .federation then { s' with phase := .edus b } else s'.startSelected cfg b 0)
  | .edus b => some (s.startSelected cfg b t.edus)
  | .dropActive => some { s.clear .active with phase := .idle }
  | .okReliable epoch => some { s.deleteReliableRequestsForActive with phase := .okActive epoch }
  | .okActive epoch => some { s.clear .active with phase := .okQueued epoch }
  | .okQueued epoch => some { s with phase := .okScan (Selection.extend ⟨epoch, [], s.epoch⟩ s.queued) }
  | .okScan b => some (s.startNext (Selection.extend b s.reliable))
  | .okActivate b =>
    match s.markAsActiveIfCurrent cfg b.epoch b.rows with
    | none => some { s with status := none, phase := .idle }
    | some s' =>
      some (({ s' with status := some .running, phase := .idle }).sendEvents cfg b.epoch b.rows 0 b.selected)
  | .finishReliable => some { s.deleteReliableRequestsForActive with phase := .finishActive }
  | .finishActive => some { s.clear .active with phase := .finishing }

/-! ## Send futures -/

/-- The destination is aborted, or the transaction is of another generation. -/
def refuses (s : Sender) (T : Txn) : Bool := s.aborted || T.epoch != some s.epoch

def transmit (s : Sender) (T : Txn) : Option Travel :=
  if T.travel = .waiting then
    some (if cfg.kind = .federation ∧ s.refuses T then .done true else .building)
  else none

/-- `send_events_dest_federation` ends at once with nothing to send;
`send_federation_request_on_if_current` checks again and starts the request. -/
def start (s : Sender) (T : Txn) : Option Travel :=
  if T.travel = .building then
    some (if cfg.kind = .federation ∧ (!T.sendable cfg ∨ s.refuses T) then .done true else .sent)
  else none

/-- The request is dropped when the generation changes. -/
def cancel (s : Sender) (T : Txn) : Option Travel :=
  if T.travel = .sent ∧ cfg.kind = .federation ∧ s.refuses T then some (.done true) else none

def answer (ok : Bool) (T : Txn) : Option Travel :=
  if T.travel = .sent then some (.done ok) else none

/-- A send future makes a step. -/
def advance (i : Nat) (f : Txn → Option Travel) (s : Sender) : Option Sender :=
  match s.flight[i]? with
  | none => none
  | some T => (f T).map fun t => { s with flight := s.flight.set i { T with travel := t } }

def answered (i : Nat) (ok : Bool) (s : Sender) : Option Sender :=
  match s.flight[i]? with
  | none => none
  | some T =>
    (s.advance i (answer ok)).map fun s =>
      if ok then { s with accepted := s.accepted ++ T.rows.filter cfg.readable } else s

/-- A finished future is taken from the worker's set. -/
def takeDone (i : Nat) (f : Option Nat → Bool → Sender → Sender) (s : Sender) : Option Sender :=
  match s.flight[i]? with
  | some ⟨epoch, _, _, _, .done ok⟩ => some (f epoch ok { s with flight := s.flight.eraseIdx i })
  | _ => none

/-! ## Abort and resume -/

/-- `increment_abort_epoch`, saturating. -/
def nextEpoch (n : Nat) : Nat := if n < u64Max then n + 1 else n

theorem le_nextEpoch (n : Nat) : n ≤ nextEpoch n := by
  unfold nextEpoch
  split <;> omega

/-- The flag, the generation and the message: nothing is awaited between them. -/
def abortDestination (s : Sender) : Sender :=
  { s with
    aborted := true
    epoch := nextEpoch s.epoch
    channel := s.channel ++ [.abortAck]
    task := .waiting }

/-- The worker has answered, or did not in time; then the sweeps. -/
def abortNext (s : Sender) : Option Sender :=
  match s.task with
  | .idle => none
  | .waiting => some { s with task := .clearActive }
  | .clearActive => some { s.clear .active with task := .clearQueued }
  | .clearQueued => some { s.clear .queued with task := .clearReliable }
  | .clearReliable => some { s.clear .reliable with task := .clearActiveAgain }
  | .clearActiveAgain => some { s.clear .active with task := .idle, returned := true }

def resumeDestination (s : Sender) : Sender := { s with aborted := false, returned := false }

/-- A new process on the same tables. -/
def restart (s : Sender) : Sender :=
  { queued := s.queued
    reliable := s.reliable
    active := s.active
    count := s.count
    accepted := s.accepted }

end Sender

/-! ## Steps -/

inductive SendAction where
  | sendPdu (id : List Nat)
  | sendEdu (json : String)
  | sendReliableEdu (json : String)
  | flush
  | startup (netburst : Bool) (keep : Nat)
  | startupSkip
  | request (t : Tick)
  | work (t : Tick)
  | response (i : Nat)
  | close
  | finishResponse (i : Nat)
  | transmit (i : Nat)
  | start (i : Nat)
  | answer (i : Nat) (ok : Bool)
  | cancel (i : Nat)
  | cleanupActive
  | cleanupQueued
  | clear (t : SendTable)
  | abort
  | abortNext
  | resume
  | restart
  deriving DecidableEq, Repr

open Sender in
/-- Reliable EDUs, aborts and resumes are for federation only; an abort or a resume
waits for the abort that is under way. -/
def Sender.step (cfg : SenderConfig) : SendAction → Sender → Option Sender
  | .sendPdu id, s => some (s.send .queued (.pdu id))
  | .sendEdu json, s => some (s.sendEdu .queued json)
  | .sendReliableEdu json, s => if cfg.kind = .federation then some (s.sendEdu .reliable json) else none
  | .flush, s => some { s with channel := s.channel ++ [.flush] }
  | .startup netburst keep, s => if s.phase = .starting then some (s.startupNetburst netburst keep) else none
  | .startupSkip, s => if s.phase = .starting then some { s with phase := .idle } else none
  | .request t, s =>
    match s.phase, s.channel with
    | .idle, m :: ms => some ({ s with channel := ms }.handleRequest cfg t m)
    | _, _ => none
  | .work t, s => s.work cfg t
  | .response i, s => if s.phase = .idle then s.takeDone i (handleResponse cfg) else none
  | .close, s => if s.phase = .idle then some { s with phase := .finishing } else none
  | .finishResponse i, s => if s.phase = .finishing then s.takeDone i (finishResponse cfg) else none
  | .transmit i, s => s.advance i (transmit cfg s)
  | .start i, s => s.advance i (start cfg s)
  | .answer i ok, s => s.answered cfg i ok
  | .cancel i, s => s.advance i (cancel cfg s)
  | .cleanupActive, s =>
    if 0 < s.cleanupsActive then
      some { s.clear .active with
        cleanupsActive := s.cleanupsActive - 1
        cleanupsQueued := s.cleanupsQueued + 1 }
    else none
  | .cleanupQueued, s =>
    if 0 < s.cleanupsQueued then some { s.clear .queued with cleanupsQueued := s.cleanupsQueued - 1 } else none
  | .clear t, s => some (s.clear t)
  | .abort, s => if cfg.kind = .federation ∧ s.task = .idle then some s.abortDestination else none
  | .abortNext, s => s.abortNext
  | .resume, s => if s.task = .idle then some s.resumeDestination else none
  | .restart, s => some s.restart

/-! ## What the steps keep -/

def SendAction.reliableEdu : SendAction → Option String
  | .sendReliableEdu json => some json
  | _ => none

def SendAction.works : SendAction → Bool
  | .work _ => true
  | _ => false

def SendAction.gates : SendAction → Bool
  | .abort | .abortNext | .resume | .restart => true
  | _ => false

def SendAction.lifts : SendAction → Bool
  | .abort | .resume => true
  | _ => false

def SendAction.outside : SendAction → Bool
  | .sendPdu _ | .sendEdu _ | .sendReliableEdu _ | .flush | .cleanupActive | .cleanupQueued | .clear _ | .abort
  | .abortNext | .resume => true
  | _ => false

namespace Sender

variable {cfg : SenderConfig} {s s' : Sender}

/-- The part of the state that belongs to aborts. -/
def gate (s : Sender) : Bool × Nat × AbortTask × Bool := (s.aborted, s.epoch, s.task, s.returned)

def tables (s : Sender) : RowTable × RowTable × RowTable := (s.queued, s.reliable, s.active)

/-- What the worker shares with the other tasks. -/
def shared (s : Sender) : (Bool × Nat × AbortTask × Bool) × RowTable × RowTable × RowTable := (s.gate, s.tables)

theorem gate_of_shared (h : s'.shared = s.shared) : s'.gate = s.gate := congrArg Prod.fst h

theorem tables_of_shared (h : s'.shared = s.shared) : s'.tables = s.tables := congrArg Prod.snd h

theorem startSelected_shared (b : Selection) (edus : Nat) : (s.startSelected cfg b edus).shared = s.shared := by
  unfold startSelected
  split
  · rfl
  · split <;> rfl

theorem compose_shared (b : Selection) : (s.compose cfg b).shared = s.shared := by
  unfold compose
  split
  · rfl
  · split
    · rfl
    · exact startSelected_shared b 0

theorem selectEvents_shared (t : Tick) (b : Selection) : (s.selectEvents cfg t b).shared = s.shared := by
  unfold selectEvents
  split
  · rfl
  · rfl
  · exact compose_shared b

theorem handleResponse_shared (epoch : Option Nat) (ok : Bool) :
    (s.handleResponse cfg epoch ok).shared = s.shared := by
  unfold handleResponse handleResponseErr
  split
  · rfl
  · split
    · rfl
    · split
      · rfl
      · split <;> rfl

theorem finishResponse_shared (epoch : Option Nat) (ok : Bool) :
    (s.finishResponse cfg epoch ok).shared = s.shared := by
  unfold finishResponse
  split <;> rfl

theorem startNext_shared (b : Selection) : (s.startNext b).shared = s.shared := by
  unfold startNext
  split
  · rfl
  · split <;> rfl

theorem advance_cases {i : Nat} {f : Txn → Option Travel} (h : s.advance i f = some s') :
    ∃ T t, s.flight[i]? = some T ∧ f T = some t ∧
      s' = { s with flight := s.flight.set i { T with travel := t } } := by
  unfold advance at h
  split at h
  · cases h
  · next T hT =>
    obtain ⟨t, ht, rfl⟩ := Option.map_eq_some_iff.mp h
    exact ⟨T, t, hT, ht, rfl⟩

theorem answered_cases {i : Nat} {ok : Bool} (h : s.answered cfg i ok = some s') :
    ∃ T, s.flight[i]? = some T ∧
      s' = { s with
        flight := s.flight.set i { T with travel := .done ok }
        accepted := if ok then s.accepted ++ T.rows.filter cfg.readable else s.accepted } := by
  unfold answered at h
  split at h
  · cases h
  · next T hT =>
    obtain ⟨_, hadv, rfl⟩ := Option.map_eq_some_iff.mp h
    obtain ⟨T', t, hT', ht, rfl⟩ := advance_cases hadv
    obtain rfl : T = T' := Option.some.inj (hT.symm.trans hT')
    unfold answer at ht
    split at ht
    · cases ht
      refine ⟨T, hT, ?_⟩
      cases ok <;> rfl
    · cases ht

theorem takeDone_cases {i : Nat} {f : Option Nat → Bool → Sender → Sender} (h : s.takeDone i f = some s') :
    ∃ T ok, s.flight[i]? = some T ∧ T.travel = .done ok ∧
      s' = f T.epoch ok { s with flight := s.flight.eraseIdx i } := by
  unfold takeDone at h
  split at h
  · next e rows edus sel ok hT =>
    cases h
    exact ⟨_, ok, hT, rfl, rfl⟩
  · cases h

theorem request_cases {t : Tick} (h : s.step cfg (.request t) = some s') :
    ∃ m ms, s.phase = .idle ∧ s.channel = m :: ms ∧ s' = ({ s with channel := ms }).handleRequest cfg t m := by
  simp only [step] at h
  split at h
  · next m ms hp hc =>
    cases h
    exact ⟨m, ms, hp, hc, rfl⟩
  · cases h

/-- Rows are activated under the generation they were selected for, while the
destination is not aborted. -/
theorem markAsActiveIfCurrent_eq_some {epoch : Option Nat} {rows : List Row}
    (h : s.markAsActiveIfCurrent cfg epoch rows = some s') :
    s' = s.markAsActive rows ∧ (cfg.kind = .federation → epoch = some s.epoch ∧ s.aborted = false) := by
  unfold markAsActiveIfCurrent at h
  split at h
  · split at h
    · next hcur =>
      cases h
      exact ⟨rfl, fun _ => ⟨hcur.1, by simpa using hcur.2⟩⟩
    · cases h
  · next hfed =>
    cases h
    exact ⟨rfl, fun hf => absurd hf hfed⟩

theorem markAsActiveIfCurrent_eq_none {epoch : Option Nat} {rows : List Row}
    (h : s.markAsActiveIfCurrent cfg epoch rows = none) :
    cfg.kind = .federation ∧ (epoch = some s.epoch → s.aborted = true) := by
  unfold markAsActiveIfCurrent at h
  split at h
  · next hfed =>
    refine ⟨hfed, fun he => ?_⟩
    by_contra hab
    simp [he, hab] at h
  · cases h

/-! ### The gate -/

theorem send_gate (t : SendTable) (r : Row) : (s.send t r).gate = s.gate := by
  unfold send
  split
  · rfl
  · cases t <;> rfl

theorem sendEdu_gate (t : SendTable) (json : String) : (s.sendEdu t json).gate = s.gate := by
  unfold sendEdu
  split
  · rfl
  · exact send_gate t _

theorem clear_gate (t : SendTable) : (s.clear t).gate = s.gate := by
  cases t <;> rfl

theorem handleRequest_gate (t : Tick) (m : Msg) : (s.handleRequest cfg t m).gate = s.gate := by
  unfold handleRequest
  cases m with
  | event r =>
    simp only
    split
    · rfl
    · exact gate_of_shared (selectEvents_shared t _)
  | flush =>
    simp only
    split <;> rfl
  | abortAck => rfl

theorem work_gate {t : Tick} (h : s.work cfg t = some s') : s'.gate = s.gate := by
  unfold work at h
  cases hp : s.phase with
  | flushReliable b =>
    cases hp ▸ h
    exact gate_of_shared (selectEvents_shared t _)
  | retry b =>
    rw [hp] at h
    simp only at h
    split at h <;> cases h
    · exact gate_of_shared (compose_shared b)
    · exact gate_of_shared (startSelected_shared _ _)
  | activate b =>
    rw [hp] at h
    simp only at h
    split at h <;> cases h
    · rfl
    · next hact =>
      rw [(markAsActiveIfCurrent_eq_some hact).1]
      split
      · rfl
      · rw [gate_of_shared (startSelected_shared _ _)]
        rfl
  | edus b =>
    cases hp ▸ h
    exact gate_of_shared (startSelected_shared _ _)
  | okScan b =>
    cases hp ▸ h
    exact gate_of_shared (startNext_shared _)
  | okActivate b =>
    rw [hp] at h
    simp only at h
    split at h <;> cases h
    · rfl
    · next hact =>
      rw [(markAsActiveIfCurrent_eq_some hact).1]
      rfl
  | _ =>
    cases hp ▸ h
    try rfl

/-- Only aborts, resumes and a new process change the gate. -/
theorem step_gate {a : SendAction} (h : s.step cfg a = some s') (ha : a.gates = false) : s'.gate = s.gate := by
  cases a with
  | sendPdu id => cases h; exact send_gate _ _
  | sendEdu json => cases h; exact sendEdu_gate _ _
  | sendReliableEdu json =>
    obtain ⟨-, ⟨⟩⟩ := Option.ite_none_right_eq_some.mp h
    exact sendEdu_gate _ _
  | flush => cases h; rfl
  | startup netburst keep =>
    obtain ⟨-, ⟨⟩⟩ := Option.ite_none_right_eq_some.mp h
    rfl
  | startupSkip =>
    obtain ⟨-, ⟨⟩⟩ := Option.ite_none_right_eq_some.mp h
    rfl
  | request t =>
    obtain ⟨m, ms, -, -, rfl⟩ := request_cases h
    exact handleRequest_gate t m
  | work t => exact work_gate h
  | response i =>
    obtain ⟨-, h⟩ := Option.ite_none_right_eq_some.mp h
    obtain ⟨T, ok, -, -, rfl⟩ := takeDone_cases h
    exact gate_of_shared (handleResponse_shared _ _)
  | close =>
    obtain ⟨-, ⟨⟩⟩ := Option.ite_none_right_eq_some.mp h
    rfl
  | finishResponse i =>
    obtain ⟨-, h⟩ := Option.ite_none_right_eq_some.mp h
    obtain ⟨T, ok, -, -, rfl⟩ := takeDone_cases h
    exact gate_of_shared (finishResponse_shared _ _)
  | transmit i | start i | cancel i =>
    obtain ⟨T, t, -, -, rfl⟩ := advance_cases h
    rfl
  | answer i ok =>
    obtain ⟨T, -, rfl⟩ := answered_cases h
    rfl
  | cleanupActive | cleanupQueued =>
    obtain ⟨-, ⟨⟩⟩ := Option.ite_none_right_eq_some.mp h
    rfl
  | clear t => cases h; exact clear_gate t
  | abort | abortNext | resume | restart => cases ha

/-! ### The worker's own state -/

def own (s : Sender) : Option TransactionStatus × Phase × List Txn := (s.status, s.phase, s.flight)

theorem send_own (t : SendTable) (r : Row) : (s.send t r).own = s.own := by
  unfold send
  split
  · rfl
  · cases t <;> rfl

theorem sendEdu_own (t : SendTable) (json : String) : (s.sendEdu t json).own = s.own := by
  unfold sendEdu
  split
  · rfl
  · exact send_own t _

theorem abortNext_own (h : s.abortNext = some s') : s'.own = s.own := by
  unfold abortNext at h
  split at h <;> cases h <;> rfl

theorem step_own {a : SendAction} (h : s.step cfg a = some s') (ha : a.outside = true) : s'.own = s.own := by
  cases a with
  | sendPdu id => cases h; exact send_own _ _
  | sendEdu json => cases h; exact sendEdu_own _ _
  | sendReliableEdu json =>
    obtain ⟨-, ⟨⟩⟩ := Option.ite_none_right_eq_some.mp h
    exact sendEdu_own _ _
  | flush => cases h; rfl
  | cleanupActive | cleanupQueued | abort | resume =>
    obtain ⟨-, ⟨⟩⟩ := Option.ite_none_right_eq_some.mp h
    rfl
  | clear t => cases h; cases t <;> rfl
  | abortNext => exact abortNext_own h
  | _ => cases ha

end Sender

end Congruent
