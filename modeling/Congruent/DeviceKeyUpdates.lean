import Mathlib.Data.List.Sort
import Mathlib.Data.String.Basic
import Congruent.Machine
import Congruent.OwnedRows
import Congruent.Publication
import Congruent.ReceiptWindow

/-!
# Updates of device keys (`mark_device_key_update`, `room_keys_changed`, `select_edus`)

A writer draws one count and puts a row for each room and each local user concerned, all
under the shared side of the barrier. The sender and `/sync` read the end of their windows
under its exclusive side and scan afterwards.
-/

namespace Congruent.DeviceKeyUpdates

open DeviceListEdus (DeviceId Changes)
open ReceiptWindow (OutgoingEdu Env)

abbrev UserId := String
abbrev ServerName := String

/-- A room or a local user, for whom changes are looked up. -/
abbrev Owner := String

abbrev ChangeKey := Owner ×ₗ Nat

def u64Max : Nat := 2 ^ 64 - 1

/-- `next_count_batch`: the counter afterwards, if it does not overflow. -/
def nextCountBatch (counter diff : Nat) : Option Nat :=
  if counter + diff ≤ u64Max then some (counter + diff) else none

theorem nextCountBatch_eq_some {counter diff count : Nat} (h : nextCountBatch counter diff = some count) :
    count = counter + diff ∧ count ≤ u64Max := by
  unfold nextCountBatch at h
  split at h
  · cases h
    exact ⟨rfl, by assumption⟩
  · cases h

/-! ## Reading a window -/

/-- `room_keys_changed` and `user_keys_changed`. -/
def keysChanged (t : SortedMap ChangeKey UserId) (owner : Owner) (since upTo : Option Nat) : List (UserId × Nat) :=
  (t.rowsFrom owner (since.elim 0 fun n => min (n + 1) u64Max) fun count => count ≤ upTo.getD u64Max).map Prod.swap

/-- A change within a window. -/
abbrev WindowRow (lower upper : Nat) := { r : UserId × Nat // lower < r.2 ∧ r.2 ≤ upper }

/-- The rows of one room that a selection takes up. At the greatest count of all a scan
finds the cursor's own row again, which is left out here. -/
def roomRows (userIsLocal : UserId → Bool) (t : SortedMap ChangeKey UserId) (room : Owner)
    (since lower upper : Nat) :
    List (WindowRow lower upper) :=
  (((keysChanged t room (some since) none).filter fun r => userIsLocal r.1).takeWhile fun r =>
    r.2 ≤ upper).filterMap
    fun r => if h : lower < r.2 ∧ r.2 ≤ upper then some ⟨r, h⟩ else none

section
variable {lower upper : Nat}

def counts (rows : List (WindowRow lower upper)) : List Nat := (rows.map fun r => r.1.2).dedup.insertionSort (· ≤ ·)

theorem mem_counts {rows : List (WindowRow lower upper)} {count : Nat} :
    count ∈ counts rows ↔ ∃ r ∈ rows, r.1.2 = count := by
  simp [counts]

theorem counts_sorted (rows : List (WindowRow lower upper)) : (counts rows).Pairwise (· < ·) := by
  have hle := List.pairwise_insertionSort (· ≤ ·) (rows.map fun r => r.1.2).dedup
  have hnodup := (List.perm_insertionSort (· ≤ ·) (rows.map fun r => r.1.2).dedup).nodup_iff.mpr
    (List.nodup_dedup _)
  exact hle.imp₂ (fun a b hab hne => lt_of_le_of_ne hab hne) hnodup

/-- `all_changes`: the users of each count. -/
def allChanges (rows : List (WindowRow lower upper)) : Changes (lower, upper) where
  groups := (counts rows).map fun count => (count, ((rows.filter fun r => r.1.2 = count).map fun r => r.1.1).dedup)
  sorted := List.pairwise_map.mpr (counts_sorted rows)
  nodup g hg := by
    obtain ⟨count, -, rfl⟩ := List.mem_map.mp hg
    exact List.nodup_dedup _
  window g hg := by
    obtain ⟨count, hc, rfl⟩ := List.mem_map.mp hg
    obtain ⟨r, -, rfl⟩ := mem_counts.mp hc
    exact r.2

end

/-! ## Tasks -/

/-- A call of `mark_device_key_update_inner`, which holds the barrier for reading. -/
inductive Writer where
  | entered (user : UserId)
  | drawn (user : UserId) (count : Nat)
  /-- It has put some rows. -/
  | fanout (user : UserId) (count : Nat)
  /-- It has put all rows and raised `last_device_key_update_count`. -/
  | announced (user : UserId) (count : Nat)
  deriving DecidableEq

/-- The count at which a writer may still put rows. -/
def Writer.held : Writer → Option Nat
  | .drawn _ count | .fanout _ count => some count
  | .entered _ | .announced _ _ => none

/-- It has put rows and not announced them. -/
def Writer.fansOut : Writer → Bool
  | .fanout _ _ => true
  | _ => false

/-- A transaction with the EDUs selected for it. -/
structure Transaction where
  dest : ServerName
  /-- The cursor its window starts from. -/
  since : Nat
  /-- `all_device_ids` when the EDUs were built. -/
  devices : UserId → Option (List DeviceId)
  edus : List OutgoingEdu
  eduCount : Nat

/-- A call of `select_edus` for a server, and the transaction that comes of it. -/
inductive Selection where
  | since (dest : ServerName) (lower : Nat)
  | window (dest : ServerName) (lower upper : Nat)
  | scanning (dest : ServerName) (lower upper last : Nat) (rooms : List Owner) (rows : List (WindowRow lower upper))
  | sending (tx : Transaction)

def Selection.scans (dest : ServerName) (room : Owner) : Selection → Bool
  | .scanning d _ _ _ (r :: _) _ => d = dest && r = room
  | _ => false

def Selection.dest : Selection → ServerName
  | .since d _ | .window d _ _ | .scanning d _ _ _ _ _ => d
  | .sending tx => tx.dest

/-- A client whose `/sync` looks up the changes listed for its own user. (Those of a room
it looks up only where it has been before, and a room that fails to load is left out.) -/
structure Client where
  user : UserId
  /-- `next_batch` of the last response. -/
  token : Nat
  /-- The end of the window of the request under way. -/
  bound : Option Nat
  inbox : List (UserId × Nat)

structure Keys where
  counter : Nat
  keychangeidUserid : SortedMap ChangeKey UserId
  lastDeviceKeyUpdateCount : Nat
  servernameEducount : AList fun _ : ServerName => Nat
  writers : List Writer
  selections : List Selection
  delivered : List Transaction
  clients : List Client

namespace Keys

def new : Keys := ⟨0, .empty, 0, ∅, [], [], [], []⟩

def latestEducount (s : Keys) (dest : ServerName) : Nat := (s.servernameEducount.lookup dest).getD 0

def setWriter (s : Keys) (i : Nat) (w : Writer) : Keys := { s with writers := s.writers.set i w }

def setSelection (s : Keys) (j : Nat) (x : Selection) : Keys := { s with selections := s.selections.set j x }

def setClient (s : Keys) (k : Nat) (c : Client) : Keys := { s with clients := s.clients.set k c }

/-- `put_raw((owner, count), user)`. -/
def putChange (s : Keys) (owner : Owner) (user : UserId) (count : Nat) : Keys :=
  { s with keychangeidUserid := s.keychangeidUserid.insert (toLex (owner, count)) user }

end Keys

/-- What `select_edus` reads besides device changes. -/
structure Others where
  env : Env
  devices : UserId → Option (List DeviceId)

inductive Action where
  | mark (user : UserId)
  | draw (i : Nat)
  | put (i : Nat) (owner : Owner)
  | announce (i : Nat)
  /-- The call returns or is dropped, and the barrier with it. -/
  | leave (i : Nat)
  /-- Other code draws counts. -/
  | other (diff : Nat)
  | select (dest : ServerName)
  | bound (j : Nat)
  /-- `last_device_key_update_count` is read, and the rooms shared with the server. -/
  | lookup (j : Nat) (rooms : List Owner)
  | scanRoom (j : Nat) (partialSince : Option Nat)
  | build (j : Nat) (others : Others)
  | deliver (j : Nat)
  | dropSelection (j : Nat)
  | connect (user : UserId)
  | syncBound (k : Nat)
  | syncScan (k : Nat)
  /-- The process ends and starts again. -/
  | restart

/-- The inputs of `select_edus`: a window, and the changes collected in it. -/
def windowEnv {lower upper : Nat} (h : lower ≤ upper) (last : Nat) (rows : List (WindowRow lower upper))
    (others : Others) : Env :=
  { others.env with
    latestEducount := lower
    currentCount := upper
    since_le := h
    lastDeviceKeyUpdateCount := last
    deviceChanges := allChanges rows
    allDeviceIds := others.devices }

variable (userIsLocal : UserId → Bool)

def step : Action → Keys → Option Keys
  | .mark user, s => some { s with writers := s.writers ++ [.entered user] }
  | .draw i, s =>
    match s.writers[i]? with
    | some (.entered user) =>
      (nextCountBatch s.counter 1).map fun count => { s.setWriter i (.drawn user count) with counter := count }
    | _ => none
  | .put i owner, s =>
    match s.writers[i]? with
    | some (.drawn user count) => some ((s.putChange owner user count).setWriter i (.fanout user count))
    | some (.fanout user count) => some ((s.putChange owner user count).setWriter i (.fanout user count))
    | _ => none
  | .announce i, s =>
    match s.writers[i]? with
    | some (.fanout user count) =>
      some { s.setWriter i (.announced user count) with
        lastDeviceKeyUpdateCount := max s.lastDeviceKeyUpdateCount count }
    | _ => none
  | .leave i, s => s.writers[i]?.map fun _ => { s with writers := s.writers.eraseIdx i }
  | .other diff, s => (nextCountBatch s.counter diff).map fun count => { s with counter := count }
  | .select dest, s => some { s with selections := s.selections ++ [.since dest (s.latestEducount dest)] }
  | .bound j, s =>
    match s.selections[j]? with
    | some (.since dest lower) =>
      if s.writers = [] then some (s.setSelection j (.window dest lower s.counter)) else none
    | _ => none
  | .lookup j rooms, s =>
    match s.selections[j]? with
    | some (.window dest lower upper) =>
      -- without an update since the cursor no room is scanned
      let rooms := if s.lastDeviceKeyUpdateCount ≤ lower then [] else rooms
      some (s.setSelection j (.scanning dest lower upper s.lastDeviceKeyUpdateCount rooms []))
    | _ => none
  | .scanRoom j partialSince, s =>
    match s.selections[j]? with
    | some (.scanning dest lower upper last (room :: rooms) rows) =>
      let since := if lower = 0 then partialSince.getD 0 else lower
      some (s.setSelection j (.scanning dest lower upper last rooms
        (rows ++ roomRows userIsLocal s.keychangeidUserid room since lower upper)))
    | _ => none
  | .build j others, s =>
    match s.selections[j]? with
    | some (.scanning dest lower upper last [] rows) =>
      if h : lower ≤ upper then
        let (edus, eduCount) := (windowEnv h last rows others).selectEdus
        some (s.setSelection j (.sending ⟨dest, lower, others.devices, edus, eduCount⟩))
      else none
    | _ => none
  | .deliver j, s =>
    match s.selections[j]? with
    | some (.sending tx) =>
      some { s with
        selections := s.selections.eraseIdx j
        delivered := s.delivered ++ [tx]
        servernameEducount := s.servernameEducount.insert tx.dest tx.eduCount }
    | _ => none
  | .dropSelection j, s => s.selections[j]?.map fun _ => { s with selections := s.selections.eraseIdx j }
  | .connect user, s => some { s with clients := s.clients ++ [⟨user, 0, none, []⟩] }
  | .syncBound k, s =>
    match s.clients[k]? with
    | some c => if s.writers = [] then some (s.setClient k { c with bound := some s.counter }) else none
    | none => none
  | .syncScan k, s =>
    match s.clients[k]? with
    | some ⟨user, token, some bound, inbox⟩ =>
      some (s.setClient k ⟨user, bound, none, inbox ++ keysChanged s.keychangeidUserid user (some token) none⟩)
    | _ => none
  | .restart, s =>
    some { s with
      lastDeviceKeyUpdateCount := s.counter
      writers := []
      selections := []
      clients := s.clients.map fun c => { c with bound := none } }

end Congruent.DeviceKeyUpdates
