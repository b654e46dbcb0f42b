import Congruent.Redb
import Congruent.TopoKeys

/-!
# Stream scans (`pdus`, `pdus_rev` of `timeline/data.rs`)

The rows of a room by their counts, from a bound upwards or downwards. The bound becomes an
exclusive count and this the key of a seek, by steps of one in opposite directions.
-/

namespace Congruent.StreamScans

open Words
open Store (Bytes)
open TopoKeys

/-! ## The order of keys -/

theorem then_ne_gt_iff {m n : Nat} {o : Ordering} : (compare m n).then o ≠ .gt ↔ m < n ∨ m = n ∧ o ≠ .gt := by
  rcases Nat.lt_trichotomy m n with hlt | rfl | hgt
  · rw [compare_lt_iff_lt.mpr hlt]
    exact iff_of_true nofun (Or.inl hlt)
  · rw [compare_eq_iff_eq.mpr rfl, Ordering.eq_then]
    simp
  · rw [compare_gt_iff_gt.mpr hgt]
    exact iff_of_false (fun h => h rfl) (by omega)

theorem compare_bytes_ne_gt_iff {a b : Bytes} : compare a b ≠ .gt ↔ a ≤ b := by
  induction a generalizing b with
  | nil =>
    refine iff_of_true ?_ (List.nil_le_lex b)
    cases b <;> exact nofun
  | cons x a ih =>
    cases b with
    | nil => exact iff_of_false (fun h => h rfl) (not_le.mpr (List.nil_lt_cons x a))
    | cons y b =>
      rw [List.compare_cons_cons, compare_uint8, then_ne_gt_iff, ih, List.cons_le_cons_iff_lex,
        UInt8.lt_iff_toNat_lt, UInt8.toNat_inj]

theorem value_pduCount (raw : RawId) : raw.pduCount.value = (signed raw).toInt := (Count.fromSigned_is _).2

theorem raw_le_iff (p q : RawId) :
    p ≤ q ↔ (room p).toNat < (room q).toNat ∨ room p = room q ∧ p.pduCount.value ≤ q.pduCount.value := by
  have hcmp : compare p.1 q.1 = (compare (room p) (room q)).then (compare (signed p) (signed q)) := by
    rw [raw_eq p, raw_eq q]
    exact compare_signed ..
  show p.1 ≤ q.1 ↔ _
  rw [← compare_bytes_ne_gt_iff, hcmp, compare_uint64, then_ne_gt_iff, UInt64.toNat_inj, value_pduCount,
    value_pduCount, compare_int64, compare_le_iff_le]

/-! ## The data -/

inductive Bound (α : Type) where
  | included (count : α)
  | excluded (count : α)
  | unbounded
  deriving DecidableEq

structure Data (RoomId Pdu : Type) where
  getShortroomid : RoomId → Except String UInt64
  /-- `{room_id:?}`. -/
  debugRoom : RoomId → String
  roomPducountEventid : SortedMap RawId Bytes
  eventidPdu : Bytes → Option Bytes
  /-- `from_json_slice`. -/
  fromJsonSlice : Bytes → Except String Pdu

def pdusRevExclusiveUntil : Bound Count → Count
  | .excluded count => count
  | .included count => count.saturatingInc .forward
  | .unbounded => .max

def pdusExclusiveFrom : Bound Count → Count
  | .excluded count => count
  | .included count => count.saturatingInc .backward
  | .unbounded => .min

namespace Data

variable {RoomId Pdu : Type} (db : Data RoomId Pdu)

def countToId (roomId : RoomId) (shorteventid : Count) : Except String RawId :=
  match db.getShortroomid roomId with
  | .ok shortroomid => .ok (.ofId ⟨shortroomid, shorteventid⟩)
  | .error e => .error ("Room " ++ db.debugRoom roomId ++ " not found: " ++ e)

def resolvePdu (row : RawId × Bytes) : Except String (Count × Pdu) :=
  match db.eventidPdu row.2 with
  | none => .error "not found in database"
  | some json =>
    match db.fromJsonSlice json with
    | .ok pdu => .ok (row.1.pduCount, pdu)
    | .error e => .error e

/-- `key.starts_with(&prefix)` for the room of a position. -/
def startsWith (current key : RawId) : Bool := current.shortroomid.isPrefixOf key.1

def pdusRev (roomId : RoomId) (until' : Bound Count) : List (Except String (Count × Pdu)) :=
  let seekCount := (pdusRevExclusiveUntil until').saturatingInc .backward
  match db.countToId roomId seekCount with
  | .error e => [.error e]
  | .ok current =>
    let rows := db.roomPducountEventid.revScanFrom current
    (rows.takeWhile fun row => startsWith current row.1).map db.resolvePdu

def pdus (roomId : RoomId) (from' : Bound Count) : List (Except String (Count × Pdu)) :=
  let from' := pdusExclusiveFrom from'
  match db.countToId roomId (from'.saturatingInc .forward) with
  | .error e => [.error e]
  | .ok current =>
    let rows := db.roomPducountEventid.scanFrom current
    (rows.takeWhile fun row => startsWith current row.1).map db.resolvePdu

end Data

/-! ## Bounds -/

namespace Bound

def map {α β : Type} (f : α → β) : Bound α → Bound β
  | included count => .included (f count)
  | excluded count => .excluded (f count)
  | unbounded => .unbounded

def From (v : Int) : Bound ValidCount → Prop
  | included count => count.1.value ≤ v
  | excluded count => count.1.value < v
  | unbounded => True

def Until (v : Int) : Bound ValidCount → Prop
  | included count => v ≤ count.1.value
  | excluded count => v < count.1.value
  | unbounded => True

end Bound

/-! ## The rows of a scan -/

theorem room_countKey (short : UInt64) (count : Count) : room (.ofId ⟨short, count⟩) = short := room_ofId _

theorem value_countKey (short : UInt64) (count : Count) :
    (RawId.ofId ⟨short, count⟩).pduCount.value = count.value := by
  rw [value_pduCount, signed_ofId]
  rfl

theorem startsWith_iff (current key : RawId) : Data.startsWith current key = true ↔ room key = room current := by
  have htake : current.shortroomid <+: key.1 ↔ current.shortroomid = key.shortroomid := by
    rw [List.prefix_iff_eq_take, length_shortroomid]
    rfl
  unfold Data.startsWith
  rw [List.isPrefixOf_iff_prefix, htake, ← beBytes_room, ← beBytes_room key]
  constructor
  · intro h
    rw [← fromBeBytes_beBytes (room key), ← h, fromBeBytes_beBytes]
  · intro h
    rw [h]

theorem raw_grouped : SortedMap.Grouped (fun raw : RawId => (room raw).toNat) fun raw => raw.pduCount.value :=
  ⟨fun p q => by rw [raw_le_iff, UInt64.toNat_inj]⟩

theorem startsWith_grouped (current key : RawId) :
    Data.startsWith current key = true ↔ (room key).toNat = (room current).toNat := by
  rw [startsWith_iff, UInt64.toNat_inj]

section
variable (rows : SortedMap RawId Bytes) (current : RawId) (row : RawId × Bytes)

theorem mem_takeWhile_scanFrom :
    row ∈ (rows.scanFrom current).takeWhile (fun row => Data.startsWith current row.1) ↔
      row ∈ rows ∧ room row.1 = room current ∧ current.pduCount.value ≤ row.1.pduCount.value := by
  rw [raw_grouped.mem_takeWhile_scanFrom (startsWith_grouped current), UInt64.toNat_inj]

theorem mem_takeWhile_revScanFrom :
    row ∈ (rows.revScanFrom current).takeWhile (fun row => Data.startsWith current row.1) ↔
      row ∈ rows ∧ room row.1 = room current ∧ row.1.pduCount.value ≤ current.pduCount.value := by
  rw [raw_grouped.mem_takeWhile_revScanFrom (startsWith_grouped current), UInt64.toNat_inj]

end

/-! ## Bounds -/

theorem value_saturatingInc_forward {c : Count} (hc : c.Valid) :
    (c.saturatingInc .forward).value = clamp (c.value + 1) :=
  (Count.saturatingInc_is hc .forward).2

theorem value_saturatingInc_backward {c : Count} (hc : c.Valid) :
    (c.saturatingInc .backward).value = clamp (c.value - 1) :=
  (Count.saturatingInc_is hc .backward).2

theorem value_min : Count.min.value = -2 ^ 63 := rfl

theorem value_max : Count.max.value = 2 ^ 63 - 1 := rfl

theorem value_inRange (c : Count) : InRange c.value := I64.inRange _

section
variable {v : Int} (hlow : Count.min.value < v) (hhigh : v < Count.max.value)
include hlow hhigh

theorem seek_from_iff (bound : Bound ValidCount) :
    ((pdusExclusiveFrom (bound.map Subtype.val)).saturatingInc .forward).value ≤ v ↔ bound.From v := by
  rw [value_min] at hlow
  rw [value_max] at hhigh
  cases bound with
  | included count =>
    have hrange := value_inRange count.1
    show ((count.1.saturatingInc .backward).saturatingInc .forward).value ≤ v ↔ count.1.value ≤ v
    rw [value_saturatingInc_forward (Count.saturatingInc_is count.2 .backward).1,
      value_saturatingInc_backward count.2]
    unfold InRange at hrange
    unfold clamp
    omega
  | excluded count =>
    have hrange := value_inRange count.1
    show (count.1.saturatingInc .forward).value ≤ v ↔ count.1.value < v
    rw [value_saturatingInc_forward count.2]
    unfold InRange at hrange
    unfold clamp
    omega
  | unbounded =>
    refine iff_of_true ?_ trivial
    show (Count.min.saturatingInc .forward).value ≤ v
    rw [value_saturatingInc_forward (by decide), value_min]
    unfold clamp
    omega

theorem seek_until_iff (bound : Bound ValidCount) :
    v ≤ ((pdusRevExclusiveUntil (bound.map Subtype.val)).saturatingInc .backward).value ↔ bound.Until v := by
  rw [value_min] at hlow
  rw [value_max] at hhigh
  cases bound with
  | included count =>
    have hrange := value_inRange count.1
    show v ≤ ((count.1.saturatingInc .forward).saturatingInc .backward).value ↔ v ≤ count.1.value
    rw [value_saturatingInc_backward (Count.saturatingInc_is count.2 .forward).1,
      value_saturatingInc_forward count.2]
    unfold InRange at hrange
    unfold clamp
    omega
  | excluded count =>
    have hrange := value_inRange count.1
    show v ≤ (count.1.saturatingInc .backward).value ↔ v < count.1.value
    rw [value_saturatingInc_backward count.2]
    unfold InRange at hrange
    unfold clamp
    omega
  | unbounded =>
    refine iff_of_true ?_ trivial
    show v ≤ (Count.max.saturatingInc .backward).value
    rw [value_saturatingInc_backward (by decide), value_max]
    unfold clamp
    omega

end

theorem value_lt_of_lt {p q : RawId} (hlt : p < q) (hroom : room p = room q) :
    p.pduCount.value < q.pduCount.value :=
  (raw_grouped.rank_lt_iff (congrArg UInt64.toNat hroom)).mp hlt

/-- A database where the counts of all stream rows are between the least and the greatest. -/
abbrev InnerData (RoomId Pdu : Type) := { db : Data RoomId Pdu //
  ∀ row ∈ db.roomPducountEventid, Count.min.value < row.1.pduCount.value ∧ row.1.pduCount.value < Count.max.value }

/-- `rows` are the rows of the room whose counts are within the bound. -/
def Within (table : SortedMap RawId Bytes) (short : UInt64) (within : Int → Prop)
    (rows : List (RawId × Bytes)) : Prop :=
  ∀ row, row ∈ rows ↔ row ∈ table ∧ room row.1 = short ∧ within row.1.pduCount.value

/-- `pdus` resolves the rows of the room from the bound on, upwards, and `pdus_rev` those up
to the bound, downwards. A room without a short id is an error. -/
theorem pdus_within_bounds {RoomId Pdu : Type} (db : InnerData RoomId Pdu) (roomId : RoomId)
    (bound : Bound ValidCount) :
    (∀ e, db.1.getShortroomid roomId = .error e →
      db.1.pdus roomId (bound.map Subtype.val) =
        [.error ("Room " ++ db.1.debugRoom roomId ++ " not found: " ++ e)] ∧
      db.1.pdusRev roomId (bound.map Subtype.val) =
        [.error ("Room " ++ db.1.debugRoom roomId ++ " not found: " ++ e)]) ∧
    ∀ short, db.1.getShortroomid roomId = .ok short →
      (∃ rows, db.1.pdus roomId (bound.map Subtype.val) = rows.map db.1.resolvePdu ∧
        Within db.1.roomPducountEventid short (fun v => bound.From v) rows ∧
        rows.Pairwise fun a b => a.1.pduCount.value < b.1.pduCount.value) ∧
      ∃ rows, db.1.pdusRev roomId (bound.map Subtype.val) = rows.map db.1.resolvePdu ∧
        Within db.1.roomPducountEventid short (fun v => bound.Until v) rows ∧
        rows.Pairwise fun a b => b.1.pduCount.value < a.1.pduCount.value := by
  refine ⟨fun e he => ?_, fun short hshort => ⟨?_, ?_⟩⟩
  · unfold Data.pdus Data.pdusRev Data.countToId
    rw [he]
    exact ⟨rfl, rfl⟩
  · unfold Data.pdus Data.countToId
    rw [hshort]
    refine ⟨_, rfl, fun row => ?_, ?_⟩
    · rw [mem_takeWhile_scanFrom, room_countKey, value_countKey]
      refine and_congr_right fun hrow => and_congr_right fun _ => ?_
      obtain ⟨hlow, hhigh⟩ := db.2 row hrow
      exact seek_from_iff hlow hhigh bound
    · refine ((SortedMap.pairwise_scanFrom _ _).sublist (List.takeWhile_sublist _)).imp_of_mem ?_
      intro a b ha hb hlt
      exact value_lt_of_lt hlt (((mem_takeWhile_scanFrom _ _ a).mp ha).2.1.trans
        ((mem_takeWhile_scanFrom _ _ b).mp hb).2.1.symm)
  · unfold Data.pdusRev Data.countToId
    rw [hshort]
    refine ⟨_, rfl, fun row => ?_, ?_⟩
    · rw [mem_takeWhile_revScanFrom, room_countKey, value_countKey]
      refine and_congr_right fun hrow => and_congr_right fun _ => ?_
      obtain ⟨hlow, hhigh⟩ := db.2 row hrow
      exact seek_until_iff hlow hhigh bound
    · refine ((SortedMap.pairwise_revScanFrom _ _).sublist (List.takeWhile_sublist _)).imp_of_mem ?_
      intro a b ha hb hlt
      exact value_lt_of_lt hlt (((mem_takeWhile_revScanFrom _ _ b).mp hb).2.1.trans
        ((mem_takeWhile_revScanFrom _ _ a).mp ha).2.1.symm)

end Congruent.StreamScans
