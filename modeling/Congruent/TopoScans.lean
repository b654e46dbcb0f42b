import Mathlib.Data.Prod.Lex
import Congruent.StreamScans

/-!
# Topological scans (`topo_pdus`, `topo_pdus_rev` of `timeline/data.rs`)

The rows of the topological index that a pass from a token goes over. A concrete token names
a depth and a count; a legacy one only a count, for which a place to start is looked for.
-/

namespace Congruent.TopoScans

open Store (Bytes)
open TopoKeys StreamScans

structure TopoToken where
  depth : UInt64
  pduCount : Count
  deriving DecidableEq

def TopoToken.isLegacy (token : TopoToken) : Bool := token.depth = 0 ∧ token.pduCount ≠ .min

structure EventMetadata where
  isOutlier : Bool
  depth : UInt64
  deprecatedLocalTopoDepth : UInt64
  pduCount : Option UInt64
  deriving DecidableEq

structure TopoData (RoomId Pdu : Type) extends Data RoomId Pdu where
  roomidTopologicalorderPducount : SortedMap Bytes24 Bytes
  eventidMetadata : Bytes → Option Bytes
  /-- `EventMetadata::from_bincode`. -/
  fromBincode : Bytes → Option EventMetadata
  eventidPduid : Bytes → Option RawId

/-- A row of the index: its key and the id of its event. -/
abbrev TopoRow := Bytes24 × Bytes

namespace TopoData

variable {RoomId Pdu : Type} (db : TopoData RoomId Pdu)

/-! ## Where a pass starts -/

def pduIdToDepth (pduId : RawId) : Option UInt64 := do
  let eventId ← db.roomPducountEventid.get pduId
  let bytes ← db.eventidMetadata eventId
  let metadata ← db.fromBincode bytes
  return metadata.depth

def nearestPduId (tokenPduId current : RawId) (dir : Direction) : Option RawId :=
  let rows := match dir with
    | .forward => db.roomPducountEventid.scanFrom tokenPduId
    | .backward => db.roomPducountEventid.revScanFrom tokenPduId
  (rows.takeWhile fun row => Data.startsWith current row.1).head?.map (·.1)

/-- `count_to_id` of a room whose short id is known. -/
def legacySeekTopoKey (short : UInt64) (token : Count) (current : RawId) (dir : Direction) : Bytes24 :=
  if token = .max then topoPducountKey current 18446744073709551615
  else if token = .min then topoPducountKey current 0
  else
    let tokenPduId := RawId.ofId ⟨short, token⟩
    let seek (tokenDepth : UInt64) : Bytes24 :=
      match dir with
      | .backward => topoPducountKey current 18446744073709551615
      | .forward => topoPducountKey current tokenDepth
    match db.pduIdToDepth tokenPduId with
    | some depth => seek depth
    | none =>
      match (db.nearestPduId tokenPduId current dir).bind fun nearest =>
          (db.pduIdToDepth nearest).map fun depth => topoPducountKey nearest depth with
      | some key => key
      | none => seek (if dir = .forward then 18446744073709551615 else 0)

/-! ## The rows of a pass -/

/-- `key.starts_with(&prefix)` for a room. -/
def inRoom (short : UInt64) (key : Bytes24) : Bool := (beBytes short).isPrefixOf key.1

def topoRowsRev (short : UInt64) (token : TopoToken) : List TopoRow :=
  let current := RawId.ofId ⟨short, token.pduCount⟩
  let tokenTopoKey := if token.isLegacy then none else some (topoPducountKey current token.depth)
  let topoKey :=
    if token.isLegacy then db.legacySeekTopoKey short token.pduCount current .backward
    else topoPducountKey current 18446744073709551615
  let rawStream := (db.roomidTopologicalorderPducount.revScanFrom topoKey).filter fun row =>
    match tokenTopoKey with
    | some tokenTopoKey => !decide (tokenTopoKey < row.1)
    | none => true
  rawStream.takeWhile fun row => inRoom short row.1

def topoRows (short : UInt64) (token : TopoToken) : List TopoRow :=
  let current := RawId.ofId ⟨short, token.pduCount.saturatingInc .forward⟩
  let topoKey :=
    if token.isLegacy then db.legacySeekTopoKey short token.pduCount current .forward
    else topoPducountKey current token.depth
  (db.roomidTopologicalorderPducount.scanFrom topoKey).takeWhile fun row => inRoom short row.1

end TopoData

/-! ## The order of the index -/

def depth (key : Bytes24) : UInt64 := (timelineKey key).depth

def count (key : Bytes24) : Count := (topoKeyToPduId key).pduCount

def place (key : Bytes24) : Nat ×ₗ Int := toLex ((depth key).toNat, (count key).value)

def topoRoom (key : Bytes24) : UInt64 := room (topoKeyToPduId key)

theorem topo_le_iff (k k' : Bytes24) :
    k ≤ k' ↔ (topoRoom k).toNat < (topoRoom k').toNat ∨ topoRoom k = topoRoom k' ∧ place k ≤ place k' := by
  have hcmp := compare_topoPducountKey (topoKeyToPduId k) (topoKeyToPduId k') (depth k) (depth k')
  unfold depth at hcmp
  rw [topoPducountKey_topoKeyToPduId, topoPducountKey_topoKeyToPduId] at hcmp
  show k.1 ≤ k'.1 ↔ _
  rw [← compare_bytes_ne_gt_iff, hcmp, compare_uint64, compare_uint64, then_ne_gt_iff, then_ne_gt_iff,
    UInt64.toNat_inj, compare_int64, compare_le_iff_le, ← value_pduCount, ← value_pduCount]
  unfold place
  rw [Prod.Lex.toLex_le_toLex]
  rfl

theorem inRoom_iff (short : UInt64) (key : Bytes24) : TopoData.inRoom short key = true ↔ topoRoom key = short := by
  have hkey := topoPducountKey_eq (topoKeyToPduId key) (depth key)
  unfold depth at hkey
  rw [topoPducountKey_topoKeyToPduId] at hkey
  unfold TopoData.inRoom
  rw [List.isPrefixOf_iff_prefix, List.prefix_iff_eq_take, length_beBytes, hkey, List.take_left' (length_beBytes _)]
  constructor
  · intro h
    rw [← fromBeBytes_beBytes short, h, fromBeBytes_beBytes]
    rfl
  · rintro rfl
    rfl

section
variable (short : UInt64) (d : UInt64) (c : Count)

theorem topoRoom_key : topoRoom (topoPducountKey (.ofId ⟨short, c⟩) d) = short := by
  rw [topoRoom, topoKeyToPduId_topoPducountKey, room_countKey]

theorem place_key : place (topoPducountKey (.ofId ⟨short, c⟩) d) = toLex (d.toNat, c.value) := by
  unfold place depth count
  rw [timelineKey_topoPducountKey, topoKeyToPduId_topoPducountKey, value_countKey]

end

theorem topo_grouped : SortedMap.Grouped (fun key => (topoRoom key).toNat) place :=
  ⟨fun k k' => by rw [topo_le_iff, UInt64.toNat_inj]⟩

section
variable {k k' a b : Bytes24}

theorem le_iff_place (h : topoRoom k = topoRoom k') : k ≤ k' ↔ place k ≤ place k' :=
  topo_grouped.rank_le_iff (congrArg UInt64.toNat h)

theorem lt_iff_place (h : topoRoom k = topoRoom k') : k < k' ↔ place k < place k' :=
  topo_grouped.rank_lt_iff (congrArg UInt64.toNat h)

theorem topoRoom_between (hka : k ≤ a) (hab : a ≤ b) (h : topoRoom k = topoRoom b) : topoRoom a = topoRoom b :=
  UInt64.toNat_inj.mp (topo_grouped.between hka hab (congrArg UInt64.toNat h))

end

/-! ## Concrete tokens -/

/-- A token that is not a legacy one, with a count between the least and the greatest. -/
structure ConcreteToken where
  token : TopoToken
  concrete : token.isLegacy = false
  valid : token.pduCount.Valid
  inner : Count.min.value < token.pduCount.value ∧ token.pduCount.value < Count.max.value

def ConcreteToken.place (t : ConcreteToken) : Nat ×ₗ Int := toLex (t.token.depth.toNat, t.token.pduCount.value)

section
variable {RoomId Pdu : Type} (db : TopoData RoomId Pdu) (short : UInt64) (t : ConcreteToken)

theorem topoRowsRev_eq : db.topoRowsRev short t.token =
    (db.roomidTopologicalorderPducount.revScanFrom
      (topoPducountKey (.ofId ⟨short, t.token.pduCount⟩) 18446744073709551615)).filter fun row =>
        !decide (topoPducountKey (.ofId ⟨short, t.token.pduCount⟩) t.token.depth < row.1) &&
          TopoData.inRoom short row.1 := by
  unfold TopoData.topoRowsRev
  simp only [t.concrete, Bool.false_eq_true, if_false]
  rw [List.takeWhile_eq_filter, List.filter_filter]
  · simp only [Bool.and_comm]
  · refine ((SortedMap.pairwise_revScanFrom _ _).sublist List.filter_sublist).imp_of_mem ?_
    intro a b ha _ hlt hb
    rw [inRoom_iff] at hb ⊢
    have hle := (SortedMap.mem_revScanFrom.mp (List.mem_filter.mp ha).1).2
    have hroom := topoRoom_between hlt.le hle (by rw [hb, topoRoom_key])
    rwa [topoRoom_key] at hroom

theorem mem_topoRowsRev (row : TopoRow) : row ∈ db.topoRowsRev short t.token ↔
    row ∈ db.roomidTopologicalorderPducount ∧ topoRoom row.1 = short ∧ place row.1 ≤ t.place := by
  rw [topoRowsRev_eq, List.mem_filter, SortedMap.mem_revScanFrom, Bool.and_eq_true, inRoom_iff, and_assoc]
  refine and_congr_right fun _ => ?_
  constructor
  · rintro ⟨-, hle, hroom⟩
    refine ⟨hroom, ?_⟩
    have hle := not_lt.mp (by simpa using hle : ¬ _)
    rwa [le_iff_place (by rw [hroom, topoRoom_key]), place_key] at hle
  · rintro ⟨hroom, hle⟩
    refine ⟨?_, ?_, hroom⟩
    · rw [le_iff_place (by rw [hroom, topoRoom_key]), place_key]
      refine le_trans hle ?_
      -- The top of the index is not before the token.
      unfold ConcreteToken.place
      rw [Prod.Lex.toLex_le_toLex]
      have hdepth := t.token.depth.toNat_lt
      show t.token.depth.toNat < 18446744073709551615 ∨ t.token.depth.toNat = 18446744073709551615 ∧ _
      omega
    · have hkey : row.1 ≤ topoPducountKey (.ofId ⟨short, t.token.pduCount⟩) t.token.depth := by
        rw [le_iff_place (by rw [hroom, topoRoom_key]), place_key]
        exact hle
      simpa using hkey

theorem topoRows_eq : db.topoRows short t.token =
    (db.roomidTopologicalorderPducount.scanFrom
      (topoPducountKey (.ofId ⟨short, t.token.pduCount.saturatingInc .forward⟩) t.token.depth)).filter fun row =>
        TopoData.inRoom short row.1 := by
  unfold TopoData.topoRows
  simp only [t.concrete, Bool.false_eq_true, if_false]
  apply SortedMap.takeWhile_scanFrom
  intro a b hka hab hb
  rw [inRoom_iff] at hb ⊢
  rw [← hb]
  exact topoRoom_between hka hab.le (by rw [hb, topoRoom_key])

theorem succ_le_iff (p : Nat ×ₗ Int) :
    toLex (t.token.depth.toNat, (t.token.pduCount.saturatingInc .forward).value) ≤ p ↔ t.place < p := by
  have hinner := t.inner
  rw [value_min, value_max] at hinner
  have hnext : (t.token.pduCount.saturatingInc .forward).value = t.token.pduCount.value + 1 := by
    rw [value_saturatingInc_forward t.valid]
    unfold Words.clamp
    omega
  rw [hnext]
  show toLex _ ≤ toLex (ofLex p) ↔ toLex _ < toLex (ofLex p)
  rw [Prod.Lex.toLex_le_toLex, Prod.Lex.toLex_lt_toLex]
  exact Iff.rfl

theorem mem_topoRows (row : TopoRow) : row ∈ db.topoRows short t.token ↔
    row ∈ db.roomidTopologicalorderPducount ∧ topoRoom row.1 = short ∧ t.place < place row.1 := by
  rw [topoRows_eq, List.mem_filter, SortedMap.mem_scanFrom, inRoom_iff, and_assoc]
  refine and_congr_right fun _ => ?_
  rw [and_comm]
  refine and_congr_right fun hroom => ?_
  rw [le_iff_place (by rw [hroom, topoRoom_key]), place_key, succ_le_iff]

theorem pairwise_topoRowsRev : (db.topoRowsRev short t.token).Pairwise fun a b => b.1 < a.1 := by
  rw [topoRowsRev_eq]
  exact (SortedMap.pairwise_revScanFrom _ _).sublist List.filter_sublist

theorem pairwise_topoRows : (db.topoRows short t.token).Pairwise fun a b => a.1 < b.1 := by
  rw [topoRows_eq]
  exact (SortedMap.pairwise_scanFrom _ _).sublist List.filter_sublist

theorem passes_cover : (db.topoRowsRev short t.token).reverse ++ db.topoRows short t.token =
    db.roomidTopologicalorderPducount.entries.filter fun row => topoRoom row.1 = short := by
  have hsorted : ((db.topoRowsRev short t.token).reverse ++ db.topoRows short t.token).Pairwise
      fun a b => a.1 < b.1 := by
    refine List.pairwise_append.mpr ⟨List.pairwise_reverse.mpr (pairwise_topoRowsRev db short t),
      pairwise_topoRows db short t, ?_⟩
    intro a ha b hb
    obtain ⟨-, haroom, ha⟩ := (mem_topoRowsRev db short t a).mp (List.mem_reverse.mp ha)
    obtain ⟨-, hbroom, hb⟩ := (mem_topoRows db short t b).mp hb
    exact (lt_iff_place (haroom.trans hbroom.symm)).mpr (lt_of_le_of_lt ha hb)
  have hsame : (⟨_, hsorted⟩ : SortedMap Bytes24 Bytes) =
      db.roomidTopologicalorderPducount.retain fun key => topoRoom key = short := by
    ext row
    rw [SortedMap.mem_retain, decide_eq_true_eq]
    show row ∈ (db.topoRowsRev short t.token).reverse ++ db.topoRows short t.token ↔ _
    rw [List.mem_append, List.mem_reverse, mem_topoRowsRev, mem_topoRows, ← and_or_left, ← and_or_left]
    refine and_congr_right fun _ => ?_
    exact ⟨fun h => h.1, fun h => ⟨h, le_or_gt _ _⟩⟩
  exact congrArg SortedMap.entries hsame

end

/-- From a concrete token, the backward pass goes over the rows of the room at or before the
token, downwards, the forward pass over those after it, upwards, and together they have every
row of the room once, whenever it was inserted. -/
theorem concrete_token_splits_room {RoomId Pdu : Type} (db : TopoData RoomId Pdu) (short : UInt64)
    (t : ConcreteToken) :
    (∀ row, row ∈ db.topoRowsRev short t.token ↔
      row ∈ db.roomidTopologicalorderPducount ∧ topoRoom row.1 = short ∧ place row.1 ≤ t.place) ∧
    (db.topoRowsRev short t.token).Pairwise (fun a b => place b.1 < place a.1) ∧
    (∀ row, row ∈ db.topoRows short t.token ↔
      row ∈ db.roomidTopologicalorderPducount ∧ topoRoom row.1 = short ∧ t.place < place row.1) ∧
    (db.topoRows short t.token).Pairwise (fun a b => place a.1 < place b.1) ∧
    (db.topoRowsRev short t.token).reverse ++ db.topoRows short t.token =
      db.roomidTopologicalorderPducount.entries.filter fun row => topoRoom row.1 = short := by
  refine ⟨mem_topoRowsRev db short t, ?_, mem_topoRows db short t, ?_, passes_cover db short t⟩
  · refine (pairwise_topoRowsRev db short t).imp_of_mem fun {a b} ha hb hlt => ?_
    exact (lt_iff_place (((mem_topoRowsRev db short t b).mp hb).2.1.trans
      ((mem_topoRowsRev db short t a).mp ha).2.1.symm)).mp hlt
  · refine (pairwise_topoRows db short t).imp_of_mem fun {a b} ha hb hlt => ?_
    exact (lt_iff_place (((mem_topoRows db short t a).mp ha).2.1.trans
      ((mem_topoRows db short t b).mp hb).2.1.symm)).mp hlt

end Congruent.TopoScans
