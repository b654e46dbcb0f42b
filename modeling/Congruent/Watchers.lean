import Mathlib.Algebra.Order.Ring.Nat
import Mathlib.Data.List.Infix
import Congruent.KeyedMap
import Congruent.Machine

/-!
# Watchers and long polling (`database/watchers.rs`, `sync/watch.rs`, `sync_events_route`)

A request arms its watchers, reads the end of its window and scans; with nothing to send it
sleeps until a write wakes it, arms again and scans again. A write commits first and looks
up the watchers of its keys afterwards.
-/

namespace Congruent.Watchers

abbrev Bytes := List UInt8

inductive MapName where
  | todeviceidEvents
  | userroomidInvitestate
  | userroomidJoined
  | userroomidKnockedstate
  | userroomidLeftstate
  | userroomidNotificationcount
  | userroomidHighlightcount
  | keychangeidUserid
  | roomusertypeRoomuserdataid
  | roomPducountEventid
  | readreceiptidReadreceipt
  | deviceleftidUserid
  | userprofileupdateValue
  | useridLastonetimekeyupdate
  | otherMap
  deriving DecidableEq

abbrev Watch := MapName × Bytes

/-- The rows of all maps, each with the count it was written at. -/
abbrev Rows := AList fun _ : Watch => Nat

def sep : UInt8 := 0xFF

/-! ## What a request watches -/

def ownFirst (user device : Bytes) : List Watch :=
  let useridPrefix := user ++ [sep]
  [(.todeviceidEvents, useridPrefix ++ device ++ [sep]),
    (.userroomidInvitestate, useridPrefix),
    (.userroomidJoined, useridPrefix),
    (.userroomidKnockedstate, useridPrefix),
    (.userroomidLeftstate, useridPrefix),
    (.userroomidNotificationcount, useridPrefix),
    (.userroomidHighlightcount, useridPrefix)]

/-- The watches of a joined room; one without a short id is passed over. -/
def roomWatches (shortRoomid : Bytes → Option Bytes) (user room : Bytes) : List Watch :=
  match shortRoomid room with
  | none => []
  | some short =>
    let roomidPrefix := room ++ [sep]
    [(.keychangeidUserid, roomidPrefix),
      (.roomusertypeRoomuserdataid, roomidPrefix ++ (user ++ [sep])),
      (.roomPducountEventid, short),
      (.readreceiptidReadreceipt, roomidPrefix)]

def ownLast (user : Bytes) : List Watch :=
  let useridPrefix := user ++ [sep]
  [(.roomusertypeRoomuserdataid, sep :: useridPrefix),
    (.keychangeidUserid, useridPrefix),
    (.deviceleftidUserid, useridPrefix),
    (.userprofileupdateValue, []),
    (.useridLastonetimekeyupdate, user)]

/-- `rooms_joined`. -/
def roomsJoined (rows : Rows) (user : Bytes) : List Bytes :=
  rows.entries.filterMap fun e =>
    if e.1.1 = .userroomidJoined ∧ (user ++ [sep]) <+: e.1.2 then some (e.1.2.drop (user.length + 1)) else none

/-! ## Requests and writes -/

inductive Phase where
  /-- `setup_watch`: the watches left, and whether the first has its entry in the map. -/
  | arming (entered : Bool) (todo : List Watch)
  /-- The scans up to the end of the window, those done and those left. -/
  | building (bound : Nat) (done todo : List Watch)
  | asleep (bound : Nat)
  | answered
  deriving DecidableEq

structure Request where
  user : Bytes
  device : Bytes
  since : Nat
  /-- The rows that give a response something to tell (`is_sync_response_empty` passes over
  the others, such as counts of notifications and of one-time keys). -/
  delta : Watch → Nat → Bool
  /-- The joined rooms as `setup_watch` read them. -/
  rooms : Option (List Bytes)
  listening : List Watch
  phase : Phase
  notified : Bool

/-- A write that has committed: the keys it is to wake, and the watched prefixes of the
last of them that it is to notify. -/
structure Writer where
  keys : List Watch
  ringing : List Watch

structure World where
  counter : Nat
  rows : Rows
  /-- The prefixes that have an entry in the watchers of their map. -/
  known : List Watch
  writers : List Writer
  requests : List Request

namespace World

def new : World := ⟨0, ∅, [], [], []⟩

def setRequest (s : World) (i : Nat) (r : Request) : World := { s with requests := s.requests.set i r }

def setWriter (s : World) (j : Nat) (w : Writer) : World := { s with writers := s.writers.set j w }

end World

def Watch.covers (p key : Watch) : Bool := p.1 = key.1 && p.2.isPrefixOf key.2

def triggered (known : List Watch) (key : Watch) : List Watch :=
  (key.2.inits.map fun p => (key.1, p)).filter fun p => p ∈ known

def Request.start (user device : Bytes) (since : Nat) (delta : Watch → Nat → Bool) : Request :=
  ⟨user, device, since, delta, none, [], .arming false (ownFirst user device), false⟩

inductive Action where
  /-- Counts are drawn. -/
  | draw (diff : Nat)
  /-- A batch is committed: rows put with their counts, or removed. -/
  | commit (ops : List (Watch × Option Nat))
  | lookup (j : Nat)
  | notify (j : Nat)
  | request (user device : Bytes) (since : Nat) (delta : Watch → Nat → Bool)
  | register (i : Nat)
  | listen (i : Nat)
  | readRooms (i : Nat)
  | bound (i : Nat)
  | scan (i : Nat)
  | wake (i : Nat)
  | deadline (i : Nat)

variable (shortRoomid : Bytes → Option Bytes)

def watches (user device : Bytes) (rooms : List Bytes) : List Watch :=
  ownFirst user device ++ (rooms.flatMap (roomWatches shortRoomid user) ++ ownLast user)

def applyOp (rows : Rows) (op : Watch × Option Nat) : Rows :=
  match op.2 with
  | some count => rows.insert op.1 count
  | none => rows.erase op.1

def step : Action → World → Option World
  | .draw diff, s => if s.counter + diff < 2 ^ 64 then some { s with counter := s.counter + diff } else none
  | .commit ops, s =>
    if ops.all fun op => op.2.all (· ≤ s.counter) then
      some { s with rows := ops.foldl applyOp s.rows, writers := s.writers ++ [⟨ops.map (·.1), []⟩] }
    else none
  | .lookup j, s =>
    match s.writers[j]? with
    | some ⟨key :: keys, []⟩ => some (s.setWriter j ⟨keys, triggered s.known key⟩)
    | _ => none
  | .notify j, s =>
    match s.writers[j]? with
    | some ⟨keys, p :: ps⟩ =>
      some { s.setWriter j ⟨keys, []⟩ with
        requests := s.requests.map fun r => { r with notified := r.notified || (p :: ps).any (· ∈ r.listening) } }
    | _ => none
  | .request user device since delta,
      s => some { s with requests := s.requests ++ [.start user device since delta] }
  | .register i, s =>
    match s.requests[i]? with
    | some ⟨user, device, since, delta, rooms, listening, .arming false (p :: todo), notified⟩ =>
      some { s.setRequest i ⟨user, device, since, delta, rooms, listening, .arming true (p :: todo), notified⟩ with
        known := p :: s.known }
    | _ => none
  | .listen i, s =>
    match s.requests[i]? with
    | some ⟨user, device, since, delta, rooms, listening, .arming true (p :: todo), notified⟩ =>
      some (s.setRequest i ⟨user, device, since, delta, rooms, listening ++ [p], .arming false todo, notified⟩)
    | _ => none
  | .readRooms i, s =>
    match s.requests[i]? with
    | some ⟨user, device, since, delta, none, listening, .arming false [], notified⟩ =>
      let rooms := roomsJoined s.rows user
      some (s.setRequest i ⟨user, device, since, delta, some rooms, listening,
        .arming false (rooms.flatMap (roomWatches shortRoomid user) ++ ownLast user), notified⟩)
    | _ => none
  | .bound i, s =>
    match s.requests[i]? with
    | some ⟨user, device, since, delta, some rooms, listening, .arming false [], notified⟩ =>
      some (s.setRequest i ⟨user, device, since, delta, some rooms, listening, .building s.counter []
        listening, notified⟩)
    | _ => none
  | .scan i, s =>
    match s.requests[i]? with
    | some ⟨user, device, since, delta, rooms, listening, .building bound done (p :: todo), notified⟩ =>
      -- such a row of the window makes the response one that is sent
      let found := s.rows.entries.any fun e => p.covers e.1 && since < e.2 && e.2 ≤ bound && delta e.1 e.2
      some (s.setRequest i ⟨user, device, since, delta, rooms, listening,
        if found then .answered else .building bound (done ++ [p]) todo, notified⟩)
    | some ⟨user, device, since, delta, rooms, listening, .building bound _ [], notified⟩ =>
      some (s.setRequest i ⟨user, device, since, delta, rooms, listening, .asleep bound, notified⟩)
    | _ => none
  | .wake i, s =>
    match s.requests[i]? with
    | some ⟨user, device, since, delta, _, _, .asleep _, true⟩ =>
      some (s.setRequest i (.start user device since delta))
    | _ => none
  | .deadline i, s =>
    match s.requests[i]? with
    | some ⟨user, device, since, delta, rooms, listening, .asleep _, notified⟩ =>
      some (s.setRequest i ⟨user, device, since, delta, rooms, listening, .answered, notified⟩)
    | _ => none

end Congruent.Watchers
