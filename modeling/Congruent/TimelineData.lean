import Congruent.Event
import Congruent.KeyedMap
import Congruent.Machine

/-!
# The tables of the timeline (`timeline/data.rs`)

The rows of an event in the timeline: its position and the ways back from it, the
topological and the timestamp index, its metadata and the parents it misses. A batch is
what its calls have read, and what it writes when it is applied. Counts are far from the
ends of 64 bits.
-/

namespace Congruent.TimelineData

/-! ## Positions -/

inductive PduCount where
  | normal (n : Nat)
  | backfilled (n : Int)
  deriving DecidableEq

namespace PduCount

def fromSigned (n : Int) : PduCount := if n ≤ 0 then .backfilled n else .normal n.toNat

def fromUnsigned (n : Nat) : PduCount := fromSigned n

def intoSigned : PduCount → Int
  | normal n => n
  | backfilled n => n

def intoUnsigned : PduCount → Nat
  | normal n => n
  | backfilled n => (n % 18446744073709551616).toNat

end PduCount

/-- `RawPduId`. -/
structure PduId where
  shortroomid : Nat
  /-- The count, signed. -/
  shorteventid : Int
  deriving DecidableEq

namespace PduId

def pduCount (id : PduId) : PduCount := .fromSigned id.shorteventid

def ofCount (shortroomid : Nat) (count : PduCount) : PduId := ⟨shortroomid, count.intoSigned⟩

end PduId

structure TopoKey where
  shortroomid : Nat
  depth : Nat
  streamOrdering : Int
  deriving DecidableEq

def topoPducountKey (id : PduId) (depth : Nat) : TopoKey := ⟨id.shortroomid, depth, id.shorteventid⟩

def topoKeyToPduId (key : TopoKey) : PduId := ⟨key.shortroomid, key.streamOrdering⟩

structure TimestampKey where
  shortroomid : Nat
  ts : Nat
  count : PduCount
  deriving DecidableEq

def packTimestampKey (id : PduId) (ts : Nat) : TimestampKey := ⟨id.shortroomid, ts, id.pduCount⟩

structure EventMetadata where
  shortRoomId : Nat
  isOutlier : Bool
  originServerTs : Nat
  depth : Nat
  deprecatedLocalTopoDepth : Nat
  pduCount : Option Nat
  deriving DecidableEq

def EventMetadata.matchesTimelinePosition (m : EventMetadata) (depth : Nat) (count : PduCount) : Bool :=
  !m.isOutlier && decide (m.deprecatedLocalTopoDepth = depth) &&
    match count with
    | .normal _ => m.pduCount = some count.intoUnsigned
    | .backfilled n =>
      match m.pduCount with
      | none => true
      | some legacy => decide (legacy = n.natAbs)

/-! ## The tables -/

structure Tables where
  roomPducountEventid : AList fun _ : PduId => EventId
  eventidPduid : AList fun _ : EventId => PduId
  eventidPdu : AList fun _ : EventId => Object
  eventidMetadata : AList fun _ : EventId => EventMetadata
  roomidTopologicalorderPducount : AList fun _ : TopoKey => EventId
  roomidTimestampPducount : AList fun _ : TimestampKey => Unit
  roomidDepthMissingeventid : AList fun _ : Nat × Nat × EventId => Unit
  roomidMissingeventidDepth : AList fun _ : Nat × EventId => Nat

namespace Tables

def empty : Tables := ⟨∅, ∅, ∅, ∅, ∅, ∅, ∅, ∅⟩

/-- The position of an event: by its metadata, then by `eventid_pduid`. -/
def getPduId (t : Tables) (id : EventId) : Option PduId :=
  match (t.eventidMetadata.lookup id).bind fun m => m.pduCount.map fun c => (m, c) with
  | some (m, count) => some (.ofCount m.shortRoomId (.fromUnsigned count))
  | none => t.eventidPduid.lookup id

def nonOutlierPduExists (t : Tables) (id : EventId) : Bool :=
  (t.getPduId id).any fun p => (t.roomPducountEventid.lookup p).isSome

def outlierPduExists (t : Tables) (id : EventId) : Bool := (t.eventidMetadata.lookup id).any (·.isOutlier)

/-! ## Inserts -/

end Tables

/-- An event to insert at a new position, at the end of the timeline or before its start. -/
structure Insert where
  pduId : PduId
  backfill : Bool
  pdu : Pdu
  json : Object

namespace Insert

def timestamp (x : Insert) : Option Nat :=
  ((x.json.get "origin_server_ts").bind Value.asI64).bind fun ts => if 0 ≤ ts then some ts.toNat else none

def metadata (x : Insert) : EventMetadata where
  shortRoomId := x.pduId.shortroomid
  isOutlier := false
  originServerTs := x.pdu.originServerTs
  depth := x.pdu.depth
  deprecatedLocalTopoDepth := x.pdu.depth
  pduCount :=
    if x.backfill then
      match x.pduId.pduCount with
      | .normal n => some n
      | .backfilled _ => none
    else some x.pduId.pduCount.intoUnsigned

end Insert

/-- The rows that an insert reads. -/
structure Seen where
  pduId : Option PduId
  metadata : Option EventMetadata
  missingDepth : Option Nat
  missing : List EventId

def missingPrevEvents (prevEvents : List EventId) (knownLocally : EventId → Bool) : List EventId :=
  prevEvents.filter fun id => !knownLocally id

namespace Tables

def see (t : Tables) (x : Insert) : Seen where
  pduId := t.eventidPduid.lookup x.pdu.eventId
  metadata := t.eventidMetadata.lookup x.pdu.eventId
  missingDepth := t.roomidMissingeventidDepth.lookup (x.pduId.shortroomid, x.pdu.eventId)
  missing := missingPrevEvents x.pdu.prevEvents fun id => (t.getPduId id).isSome

/-- `remove_stream_and_topo_pducount_from_batch`. -/
def removeStreamAndTopo (t : Tables) (p : PduId) (id : EventId) (depth : Option Nat) : Tables :=
  { t with
    roomPducountEventid := t.roomPducountEventid.erase p
    eventidPduid := t.eventidPduid.erase id
    roomidTopologicalorderPducount :=
      match depth with
      | some depth => t.roomidTopologicalorderPducount.erase (topoPducountKey p depth)
      | none => t.roomidTopologicalorderPducount }

def resolveMissing (t : Tables) (room : Nat) (id : EventId) : Option Nat → Tables
  | some depth =>
    { t with
      roomidDepthMissingeventid := t.roomidDepthMissingeventid.erase (room, depth, id)
      roomidMissingeventidDepth := t.roomidMissingeventidDepth.erase (room, id) }
  | none => t

def recordMissing (room depth : Nat) (t : Tables) (id : EventId) : Tables :=
  { t with
    roomidDepthMissingeventid := t.roomidDepthMissingeventid.insert (room, depth, id) ()
    roomidMissingeventidDepth := t.roomidMissingeventidDepth.insert (room, id) depth }

/-- `record_backward_extremities_into_batch`. -/
def recordBackwardExtremities (t : Tables) (x : Insert) (seen : Seen) : Tables :=
  seen.missing.foldl (recordMissing x.pduId.shortroomid x.pdu.depth)
    (t.resolveMissing x.pduId.shortroomid x.pdu.eventId seen.missingDepth)

def removeMoved (t : Tables) (x : Insert) (seen : Seen) : Tables :=
  match seen.pduId with
  | some p =>
    if p ≠ x.pduId then
      t.removeStreamAndTopo p x.pdu.eventId (seen.metadata.map (·.deprecatedLocalTopoDepth))
    else t
  | none => t

/-- What `append_pdu_batch_rows` and `prepend_backfill_pdu_batch` write. -/
def insertRows (t : Tables) (x : Insert) (seen : Seen) : Tables :=
  let t := t.removeMoved x seen
  recordBackwardExtremities { t with
    eventidPduid := t.eventidPduid.insert x.pdu.eventId x.pduId
    eventidPdu := t.eventidPdu.insert x.pdu.eventId x.json
    roomPducountEventid := t.roomPducountEventid.insert x.pduId x.pdu.eventId
    roomidTopologicalorderPducount :=
      t.roomidTopologicalorderPducount.insert (topoPducountKey x.pduId x.pdu.depth) x.pdu.eventId
    roomidTimestampPducount :=
      match x.timestamp with
      | some ts => t.roomidTimestampPducount.insert (packTimestampKey x.pduId ts) ()
      | none => t.roomidTimestampPducount
    eventidMetadata := t.eventidMetadata.insert x.pdu.eventId x.metadata } x seen

def insert (t : Tables) (x : Insert) : Tables := t.insertRows x (t.see x)

/-! ### Tables that a part of an insert leaves as they are -/

section
variable (t : Tables) (x : Insert) (seen : Seen)

structure SameRows (t t' : Tables) : Prop where
  streams : t'.roomPducountEventid = t.roomPducountEventid
  pduids : t'.eventidPduid = t.eventidPduid
  pdus : t'.eventidPdu = t.eventidPdu
  metadata : t'.eventidMetadata = t.eventidMetadata
  topo : t'.roomidTopologicalorderPducount = t.roomidTopologicalorderPducount
  timestamps : t'.roomidTimestampPducount = t.roomidTimestampPducount

theorem SameRows.trans {t t' t'' : Tables} (h : SameRows t t') (h' : SameRows t' t'') : SameRows t t'' where
  streams := h'.streams.trans h.streams
  pduids := h'.pduids.trans h.pduids
  pdus := h'.pdus.trans h.pdus
  metadata := h'.metadata.trans h.metadata
  topo := h'.topo.trans h.topo
  timestamps := h'.timestamps.trans h.timestamps

theorem recordBackwardExtremities_rows : SameRows t (t.recordBackwardExtremities x seen) := by
  have hfold : ∀ (ids : List EventId) (t : Tables),
      SameRows t (ids.foldl (recordMissing x.pduId.shortroomid x.pdu.depth) t) := by
    intro ids
    induction ids with
    | nil => exact fun t => ⟨rfl, rfl, rfl, rfl, rfl, rfl⟩
    | cons id ids ih =>
      intro t
      have hone : SameRows t (recordMissing x.pduId.shortroomid x.pdu.depth t id) := ⟨rfl, rfl, rfl, rfl, rfl, rfl⟩
      rw [List.foldl_cons]
      exact hone.trans (ih _)
  have hresolve : SameRows t (t.resolveMissing x.pduId.shortroomid x.pdu.eventId seen.missingDepth) := by
    unfold resolveMissing
    split <;> exact ⟨rfl, rfl, rfl, rfl, rfl, rfl⟩
  exact hresolve.trans (hfold seen.missing _)

variable {t x seen}

theorem lookup_insertRows_stream (p : PduId) : (t.insertRows x seen).roomPducountEventid.lookup p =
    if p = x.pduId then some x.pdu.eventId
    else if seen.pduId = some p then none else t.roomPducountEventid.lookup p := by
  unfold insertRows
  rw [(recordBackwardExtremities_rows ..).streams]
  by_cases hp : p = x.pduId
  · rw [hp, AList.lookup_insert, if_pos rfl]
  · rw [AList.lookup_insert_ne hp, if_neg hp]
    unfold removeMoved
    cases hq : seen.pduId with
    | none => rfl
    | some q =>
      by_cases hqx : q = x.pduId
      · have hqp : some q ≠ some p := fun h => hp ((Option.some.inj h).symm.trans hqx)
        simp only [hqx, ne_eq, not_true_eq_false, if_false]
        rw [if_neg (hqx ▸ hqp)]
      · simp only [ne_eq, hqx, not_false_eq_true, if_true, removeStreamAndTopo]
        rw [AList.lookup_erase_eq]
        by_cases hpq : p = q
        · rw [if_pos hpq, if_pos (congrArg some hpq.symm)]
        · rw [if_neg hpq, if_neg fun h => hpq (Option.some.inj h).symm]

theorem lookup_insertRows_topo (key : TopoKey) : (t.insertRows x seen).roomidTopologicalorderPducount.lookup key =
    if key = topoPducountKey x.pduId x.pdu.depth then some x.pdu.eventId
    else (t.removeMoved x seen).roomidTopologicalorderPducount.lookup key := by
  unfold insertRows
  rw [(recordBackwardExtremities_rows ..).topo]
  exact AList.lookup_insert_ite ..

theorem lookup_insertRows_timestamp (key : TimestampKey) :
    (t.insertRows x seen).roomidTimestampPducount.lookup key =
      if x.timestamp.map (packTimestampKey x.pduId) = some key then some ()
      else t.roomidTimestampPducount.lookup key := by
  unfold insertRows
  rw [(recordBackwardExtremities_rows ..).timestamps]
  have hmoved : (t.removeMoved x seen).roomidTimestampPducount = t.roomidTimestampPducount := by
    unfold removeMoved
    split
    · split <;> rfl
    · rfl
  cases x.timestamp with
  | none => simp [hmoved]
  | some ts =>
    simp only [Option.map_some, Option.some.injEq]
    rw [AList.lookup_insert_ite, hmoved]
    exact if_congr eq_comm rfl rfl

theorem lookup_removeMoved_topo {key : TopoKey} (h : seen.pduId ≠ some (topoKeyToPduId key)) :
    (t.removeMoved x seen).roomidTopologicalorderPducount.lookup key =
      t.roomidTopologicalorderPducount.lookup key := by
  unfold removeMoved
  split
  · rename_i p hp
    split
    · cases seen.metadata.map (·.deprecatedLocalTopoDepth) with
      | none => rfl
      | some depth => exact AList.lookup_erase_ne fun heq => h (hp.trans (congrArg some (heq ▸ rfl)))
    · rfl
  · rfl

theorem lookup_of_removeMoved_topo {key : TopoKey} {id : EventId}
    (h : (t.removeMoved x seen).roomidTopologicalorderPducount.lookup key = some id) :
    t.roomidTopologicalorderPducount.lookup key = some id := by
  unfold removeMoved at h
  split at h
  · split at h
    · cases hdepth : seen.metadata.map (·.deprecatedLocalTopoDepth) with
      | none =>
        rw [hdepth] at h
        exact h
      | some depth =>
        rw [hdepth] at h
        simp only [removeStreamAndTopo] at h
        rw [AList.lookup_erase_eq] at h
        split at h
        · cases h
        · exact h
    · exact h
  · exact h

theorem lookup_insertRows_pduid (id : EventId) : (t.insertRows x seen).eventidPduid.lookup id =
    if id = x.pdu.eventId then some x.pduId else t.eventidPduid.lookup id := by
  unfold insertRows
  rw [(recordBackwardExtremities_rows ..).pduids]
  by_cases hid : id = x.pdu.eventId
  · rw [hid, AList.lookup_insert, if_pos rfl]
  · rw [AList.lookup_insert_ne hid, if_neg hid]
    unfold removeMoved
    split
    · split
      · exact AList.lookup_erase_ne hid
      · rfl
    · rfl

theorem removeMoved_others : (t.removeMoved x seen).eventidPdu = t.eventidPdu ∧
    (t.removeMoved x seen).eventidMetadata = t.eventidMetadata ∧
    (t.removeMoved x seen).roomidTimestampPducount = t.roomidTimestampPducount := by
  unfold removeMoved
  split
  · split <;> exact ⟨rfl, rfl, rfl⟩
  · exact ⟨rfl, rfl, rfl⟩

theorem lookup_insertRows_metadata (id : EventId) : (t.insertRows x seen).eventidMetadata.lookup id =
    if id = x.pdu.eventId then some x.metadata else t.eventidMetadata.lookup id := by
  unfold insertRows
  rw [(recordBackwardExtremities_rows ..).metadata]
  by_cases hid : id = x.pdu.eventId
  · rw [hid, AList.lookup_insert, if_pos rfl]
  · rw [AList.lookup_insert_ne hid, if_neg hid, removeMoved_others.2.1]

theorem lookup_insertRows_pdu (id : EventId) : (t.insertRows x seen).eventidPdu.lookup id =
    if id = x.pdu.eventId then some x.json else t.eventidPdu.lookup id := by
  unfold insertRows
  rw [(recordBackwardExtremities_rows ..).pdus]
  by_cases hid : id = x.pdu.eventId
  · rw [hid, AList.lookup_insert, if_pos rfl]
  · rw [AList.lookup_insert_ne hid, if_neg hid, removeMoved_others.1]

end

end Tables

theorem Insert.metadata_pduCount {x : Insert} (hcount : x.backfill = false → 0 < x.pduId.shorteventid) {c : Nat}
    (h : x.metadata.pduCount = some c) : (c : Int) = x.pduId.shorteventid := by
  unfold Insert.metadata PduId.pduCount PduCount.fromSigned at h
  by_cases hb : x.backfill = true
  · simp only [hb, if_true] at h
    by_cases hle : x.pduId.shorteventid ≤ 0
    · simp [hle] at h
    · simp only [hle, if_false, Option.some.injEq] at h
      omega
  · have hpos := hcount (Bool.not_eq_true _ |>.mp hb)
    have hle : ¬ x.pduId.shorteventid ≤ 0 := by omega
    simp only [hb, hle, if_false, PduCount.intoUnsigned, Bool.false_eq_true, Option.some.injEq] at h
    omega

theorem PduCount.intoSigned_fromSigned (n : Int) : (PduCount.fromSigned n).intoSigned = n := by
  unfold PduCount.fromSigned
  split
  · rfl
  · simp only [PduCount.intoSigned]
    omega

theorem PduId.ofCount_fromUnsigned {p : PduId} {c : Nat} (h : (c : Int) = p.shorteventid) :
    PduId.ofCount p.shortroomid (.fromUnsigned c) = p := by
  unfold PduId.ofCount PduCount.fromUnsigned
  rw [PduCount.intoSigned_fromSigned, h]

/-! ## Events for concrete runs -/

def messageAt (count : Int) (backfill : Bool) (id : EventId) (prevEvents : List EventId)
    (depth : Nat) : Insert where
  pduId := ⟨1, count⟩
  backfill := backfill
  pdu := { stateEvent id "@alice:a" (.other "m.room.topic") "" [] [] with prevEvents := prevEvents, depth := depth }
  json := [("origin_server_ts", .num 7)]

end Congruent.TimelineData
