import Mathlib.Data.List.Destutter
import Congruent.FetchState
import Congruent.KahnOrder
import Congruent.StreamScans
import Congruent.TimelineOps

/-!
# Renumbering a room (`reorder_timeline` with `force_reindex`)

All events of a room get new counts in the order of the sort, from the counts the room has.
Backfilled counts become live ones; where two of them meet, counts past the greatest are
taken. One batch removes all old rows and then writes the new ones.
-/

namespace Congruent.ForceReindex

open Words TopoKeys
open StreamScans (Data.startsWith)

/-! ## New counts -/

def liveCount : Count → Count
  | .normal n => .normal n
  | .backfilled n => .normal (I64.unsignedAbs n)

def nextCount (available : List Count) : UInt64 :=
  match available.getLast? with
  | none => 1
  | some (.normal n) => U64.saturatingAdd n 1
  | some (.backfilled _) => 1

def fillCounts : Nat → List Count → List Count
  | 0, available => available
  | n + 1, available => fillCounts n (available ++ [.normal (nextCount available)])

def availableCounts (counts : List Count) : List Count :=
  let available := ((counts.map liveCount).insertionSort fun a b => a.cmp b ≠ .gt).destutter (· ≠ ·)
  fillCounts (counts.length - available.length) available

/-! ## The tables -/

/-- The metadata of an event that a reordering reads or writes. -/
structure EventMetadata where
  originServerTs : UInt64
  depth : UInt64
  deprecatedLocalTopoDepth : UInt64
  pduCount : Option UInt64
  deriving DecidableEq

structure Tables where
  roomPducountEventid : SortedMap RawId EventId
  eventidPduid : SortedMap EventId RawId
  eventidMetadata : SortedMap EventId EventMetadata
  roomidTopologicalorderPducount : SortedMap Bytes24 EventId

inductive DbOp where
  | removeStream (key : RawId)
  | insertStream (key : RawId) (id : EventId)
  | removePduid (id : EventId)
  | insertPduid (id : EventId) (key : RawId)
  | insertMetadata (id : EventId) (m : EventMetadata)
  | removeTopo (key : Bytes24)
  | insertTopo (key : Bytes24) (id : EventId)

namespace Tables

def applyOp (t : Tables) : DbOp → Tables
  | .removeStream key => { t with roomPducountEventid := t.roomPducountEventid.remove key }
  | .insertStream key id => { t with roomPducountEventid := t.roomPducountEventid.insert key id }
  | .removePduid id => { t with eventidPduid := t.eventidPduid.remove id }
  | .insertPduid id key => { t with eventidPduid := t.eventidPduid.insert id key }
  | .insertMetadata id m => { t with eventidMetadata := t.eventidMetadata.insert id m }
  | .removeTopo key =>
    { t with roomidTopologicalorderPducount := t.roomidTopologicalorderPducount.remove key }
  | .insertTopo key id =>
    { t with roomidTopologicalorderPducount := t.roomidTopologicalorderPducount.insert key id }

/-- `db_apply_batch`. -/
def commit (t : Tables) (batch : List DbOp) : Tables := batch.foldl applyOp t

end Tables

/-! ## What is collected -/

structure Entry where
  count : Count
  depth : UInt64
  ts : UInt64
  deriving DecidableEq

def pduCountToId (short : UInt64) (shorteventid : Count) (dir : Direction) : RawId :=
  .ofId ⟨short, shorteventid.saturatingInc dir⟩

def isNormal : Count → Bool
  | .normal _ => true
  | .backfilled _ => false

namespace Tables

variable (t : Tables) (short : UInt64)

def collectRows : List (RawId × EventId) :=
  let seekBackfill := pduCountToId short .min .forward
  let seekNormal := pduCountToId short (.normal 0) .forward
  let inRoom := Data.startsWith seekBackfill
  ((t.roomPducountEventid.scanFrom seekBackfill).takeWhile fun row => inRoom row.1 && !isNormal row.1.pduCount) ++
    (t.roomPducountEventid.scanFrom seekNormal).takeWhile fun row => inRoom row.1

def entry (row : RawId × EventId) : EventId × Entry :=
  let metaOpt := t.eventidMetadata.get row.2
  (row.2, ⟨row.1.pduCount, (metaOpt.map (·.depth)).getD 0, (metaOpt.map (·.originServerTs)).getD 0⟩)

def collectReorderEntries : SortedMap EventId Entry :=
  ((t.collectRows short).map t.entry).foldl (fun entries e => entries.insert e.1 e.2) .empty

/-! ## The batch -/

def clearRoomTopoOps : List DbOp :=
  (t.roomidTopologicalorderPducount.entries.filter fun row => (beBytes short).isPrefixOf row.1.1).map fun row =>
    .removeTopo row.1

/-- `remove_stream_and_topo_pducount_from_batch`. Without metadata the depth is not known. -/
def removeOps (e : EventId × Entry) : List DbOp :=
  let oldPduId := RawId.ofId ⟨short, e.2.count⟩
  let topo := match t.eventidMetadata.get e.1 with
    | some m => [.removeTopo (topoPducountKey oldPduId m.deprecatedLocalTopoDepth)]
    | none => []
  .removeStream oldPduId :: .removePduid e.1 :: topo

/-- `replace_stream_topo_with_cached_metadata_batch`, and without metadata
`replace_stream_and_topo_pducount_batch`. -/
def replaceOps (e : EventId × Count × UInt64) : List DbOp :=
  let (eventId, newCount, localTopoDepth) := e
  let pduId := RawId.ofId ⟨short, newCount⟩
  let metadata := match t.eventidMetadata.get eventId with
    | some m => [.insertMetadata eventId { m with
        deprecatedLocalTopoDepth := localTopoDepth
        pduCount := match newCount with
          | .normal x => some x
          | .backfilled _ => none }]
    | none => []
  .insertStream pduId eventId :: .insertPduid eventId pduId :: metadata ++
    [.insertTopo (topoPducountKey pduId localTopoDepth) eventId]

/-- The events with their new counts and their places in the sort. -/
def replacements (sorted : List EventId) (available : List Count) : List (EventId × Count × UInt64) :=
  (sorted.zip available).zipIdx.map fun e => (e.1.1, e.1.2, .ofNat (e.2 + 1))

def reindexBatch (entries : SortedMap EventId Entry) (sorted : List EventId) (available : List Count) : List DbOp :=
  t.clearRoomTopoOps short ++ entries.entries.flatMap (t.removeOps short) ++
    (replacements sorted available).flatMap (t.replaceOps short)

end Tables

/-! ## Reordering -/

inductive ReorderError where
  | invalidParam (message : String)
  | database (message : String)
  deriving DecidableEq

structure Reindexed where
  sorted : List EventId
  counts : List Count
  tables : Tables

def maxForceReindexEvents : Nat := 25000

def knownParents (prevEvents : EventId → List EventId) (entries : SortedMap EventId Entry) (id : EventId) :
    List EventId :=
  (prevEvents id).dedup.filter fun prevId => (entries.get prevId).isSome

def droppedParentEdges (prevEvents : EventId → List EventId) (entries : SortedMap EventId Entry) : Nat :=
  (entries.entries.map fun e => (prevEvents e.1).dedup.length - (knownParents prevEvents entries e.1).length).sum

def sortEntries (prevEvents : EventId → List EventId) (entries : SortedMap EventId Entry) : List EventId :=
  sortTimelineEvents (entries.entries.map fun e =>
    ⟨e.1, knownParents prevEvents entries e.1, e.2.ts.toNat, e.2.depth.toNat⟩)

def counts (entries : SortedMap EventId Entry) : List Count := entries.entries.map fun e => e.2.count

/-- `reorder_timeline` with `force_reindex`, up to its batch. -/
def forceReindex (prevEvents : EventId → List EventId) (t : Tables) (short : UInt64) (allowIncomplete : Bool) :
    Except ReorderError Reindexed :=
  let entries := t.collectReorderEntries short
  if entries.entries = [] then .ok ⟨[], [], t⟩
  else
    let dropped := droppedParentEdges prevEvents entries
    if 0 < dropped ∧ allowIncomplete = false then
      .error (.invalidParam ("reorder_timeline: aborted because " ++ toString dropped ++
        " missing parent edges were detected (incomplete DAG history). Pass --allow-incomplete to override."))
    else
      let sorted := sortEntries prevEvents entries
      if sorted.length ≠ entries.entries.length then
        .error (.database ("reorder_timeline: topo sort dropped " ++
          toString (entries.entries.length - sorted.length) ++ " events (cycles or disconnected)"))
      else if maxForceReindexEvents < sorted.length then
        .error (.invalidParam ("force_reindex is currently limited to rooms with at most " ++
          toString maxForceReindexEvents ++ " events because it requires a single atomic whole-room rewrite; " ++
          "rerun without force_reindex for large rooms"))
      else
        let available := availableCounts (counts entries)
        .ok ⟨sorted, available, t.commit (t.reindexBatch short entries sorted available)⟩

/-! ## Renumbering -/

/-- The room has the same events, at new counts that increase along the sort. -/
structure Renumbered (t : Tables) (short : UInt64) (r : Reindexed) : Prop where
  length : r.counts.length = (t.collectReorderEntries short).entries.length
  nodup : r.counts.Nodup
  increasing : r.counts.Pairwise fun a b => a.cmp b = .lt
  assigned : ∀ e ∈ r.sorted.zip r.counts, (RawId.ofId ⟨short, e.2⟩, e.1) ∈ r.tables.roomPducountEventid
  inverse : ∀ raw id, (raw, id) ∈ r.tables.roomPducountEventid ↔ (id, raw) ∈ r.tables.eventidPduid
  sameEvents : ∀ id, (∃ raw, (raw, id) ∈ r.tables.roomPducountEventid ∧ room raw = short) ↔
    ∃ raw, (raw, id) ∈ t.roomPducountEventid ∧ room raw = short

/-- How many counts meet another one when they lose their sign. -/
def collisions (counts : List Count) : Nat := counts.length - (counts.map fun c => c.value.natAbs).dedup.length

/-- The counts past the greatest, one for each collision, are still live ones. -/
def CountsFit (counts : List Count) : Prop := ∀ c ∈ counts, c.value.natAbs + collisions counts < 2 ^ 63

/-! ## The new counts as numbers -/

def live (n : Nat) : Count := .normal (.ofNat n)

theorem toNat_word {n : Nat} (hn : n < 2 ^ 64) : (UInt64.ofNat n).toNat = n := UInt64.toNat_ofNat_of_lt' hn

theorem value_live {n : Nat} (hn : n < 2 ^ 64) : (live n).value = if n < 2 ^ 63 then (n : Int) else n - 2 ^ 64 := by
  have hvalue := I64.toInt_toInt64 (.ofNat n)
  rwa [toNat_word hn] at hvalue

theorem liveCount_eq {c : Count} (hc : c.Valid) : liveCount c = live c.value.natAbs := by
  cases c with
  | normal n =>
    rw [Count.value_normal hc, Int.natAbs_natCast, live, UInt64.ofNat_toNat]
    rfl
  | backfilled n => rfl

theorem cmp_lt_iff (a b : Count) : a.cmp b = .lt ↔ a.value < b.value := by
  unfold Count.cmp
  rw [compare_int64, compare_lt_iff_lt]
  rfl

theorem cmp_ne_gt_iff (a b : Count) : a.cmp b ≠ .gt ↔ a.value ≤ b.value := by
  unfold Count.cmp
  rw [compare_int64, compare_le_iff_le]
  rfl

theorem live_inj {m n : Nat} (hm : m < 2 ^ 64) (hn : n < 2 ^ 64) : live m = live n ↔ m = n := by
  unfold live
  rw [Count.normal.injEq, ← UInt64.toNat_inj, toNat_word hm, toNat_word hn]

theorem fillCounts_eq {k : Nat} (hk : k < 2 ^ 64) {l : List Nat} (hl : ∀ n ∈ l, n + k < 2 ^ 64) :
    fillCounts k (l.map live) = (TimelineData.fillCounts k l).map live := by
  induction k generalizing l with
  | zero => rfl
  | succ k ih =>
    have hnext : Count.normal (nextCount (l.map live)) = live ((l.getLast?.map (· + 1)).getD 1) := by
      unfold nextCount
      rw [List.getLast?_map]
      cases hlast : l.getLast? with
      | none => rfl
      | some n =>
        have hn := hl n (List.mem_of_getLast? hlast)
        have hsum : U64.saturatingAdd (.ofNat n) 1 = .ofNat (n + 1) := by
          rw [← UInt64.toNat_inj, U64.toNat_saturatingAdd, toNat_word (by omega), toNat_word (by omega)]
          exact Nat.min_eq_left (by show n + 1 ≤ 2 ^ 64 - 1; omega)
        exact congrArg Count.normal hsum
    rw [fillCounts, TimelineData.fillCounts, hnext]
    have happend : l.map live ++ [live ((l.getLast?.map (· + 1)).getD 1)] =
        (l ++ [(l.getLast?.map (· + 1)).getD 1]).map live := by rw [List.map_append, List.map_singleton]
    rw [happend]
    refine ih (by omega) fun n hn => ?_
    rcases List.mem_append.mp hn with hn | hn
    · have hlt := hl n hn
      omega
    · rw [List.mem_singleton.mp hn]
      cases hlast : l.getLast? with
      | none =>
        show 1 + k < 2 ^ 64
        omega
      | some n =>
        have hlt := hl n (List.mem_of_getLast? hlast)
        show n + 1 + k < 2 ^ 64
        omega

theorem fillCounts_lt_iff (bound k : Nat) {l : List Nat} (hne : l ≠ []) (hl : l.Pairwise (· < ·)) :
    (∀ n ∈ TimelineData.fillCounts k l, n < bound) ↔ ∀ n ∈ l, n + k < bound := by
  induction k generalizing l with
  | zero => rfl
  | succ k ih =>
    obtain ⟨init, last, rfl⟩ := (List.eq_nil_or_concat' l).resolve_left hne
    rw [TimelineData.fillCounts, List.getLast?_concat, Option.map_some, Option.getD_some]
    have hlast : ∀ n ∈ init ++ [last], n ≤ last := by
      intro n hn
      rcases List.mem_append.mp hn with hn | hn
      · exact ((List.pairwise_append.mp hl).2.2 n hn last (List.mem_singleton_self last)).le
      · exact (List.mem_singleton.mp hn).le
    rw [ih (List.append_ne_nil_of_left_ne_nil hne _)]
    · constructor
      · intro h n hn
        have hfull := h (last + 1) (List.mem_append_right _ (List.mem_singleton_self _))
        have hle := hlast n hn
        omega
      · intro h n hn
        rcases List.mem_append.mp hn with hn | hn
        · have hlt := h n hn
          omega
        · have hlt := h last (List.mem_append_right _ (List.mem_singleton_self _))
          rw [List.mem_singleton.mp hn]
          omega
    · refine List.pairwise_append.mpr ⟨hl, List.pairwise_singleton _ _, fun n hn m hm => ?_⟩
      rw [List.mem_singleton.mp hm]
      exact Nat.lt_succ_of_le (hlast n hn)

theorem mem_fillCounts (k : Nat) {l : List Nat} {n : Nat} (hn : n ∈ l) : n ∈ TimelineData.fillCounts k l := by
  induction k generalizing l with
  | zero => exact hn
  | succ k ih => exact ih (List.mem_append_left _ hn)

section
variable {cs : List Count} (hvalid : ∀ c ∈ cs, c.Valid) (hlow : ∀ c ∈ cs, c.value.natAbs < 2 ^ 63)
include hvalid hlow

theorem availableCounts_eq (hlen : cs.length ≤ 2 ^ 63) :
    availableCounts cs = (TimelineData.availableCounts (cs.map Count.value)).map live := by
  have hlive : cs.map liveCount = ((cs.map Count.value).map Int.natAbs).map live := by
    rw [List.map_map, List.map_map]
    exact List.map_congr_left fun c hc => liveCount_eq (hvalid c hc)
  have hsmall : ∀ n ∈ (cs.map Count.value).map Int.natAbs, n < 2 ^ 63 := by
    intro n hn
    rw [List.map_map] at hn
    obtain ⟨c, hc, rfl⟩ := List.mem_map.mp hn
    exact hlow c hc
  have hsort : (cs.map liveCount).insertionSort (fun a b => a.cmp b ≠ .gt) =
      (((cs.map Count.value).map Int.natAbs).insertionSort (· ≤ ·)).map live := by
    rw [hlive]
    refine (List.map_insertionSort _ _ live _ fun m hm n hn => ?_).symm
    have hm := hsmall m hm
    have hn := hsmall n hn
    rw [cmp_ne_gt_iff, value_live (by omega), value_live (by omega), if_pos hm, if_pos hn, Int.ofNat_le]
  have hsorted := List.pairwise_insertionSort (· ≤ ·) ((cs.map Count.value).map Int.natAbs)
  have hdedup : ((cs.map liveCount).insertionSort fun a b => a.cmp b ≠ .gt).destutter (· ≠ ·) =
      (((cs.map Count.value).map Int.natAbs).insertionSort (· ≤ ·)).dedup.map live := by
    rw [hsort, ← hsorted.destutter_eq_dedup]
    refine (List.map_destutter fun m hm n hn => ?_).symm
    have hm := hsmall m ((List.mem_insertionSort _).mp hm)
    have hn := hsmall n ((List.mem_insertionSort _).mp hn)
    rw [ne_eq, ne_eq, live_inj (by omega) (by omega)]
  unfold availableCounts TimelineData.availableCounts
  simp only [hdedup, List.length_map]
  refine fillCounts_eq (by omega) fun n hn => ?_
  have hn := hsmall n ((List.mem_insertionSort _).mp (List.mem_dedup.mp hn))
  omega

omit hvalid hlow in
theorem availableCounts_lt_iff (bound : Nat) (hne : cs ≠ []) :
    (∀ n ∈ TimelineData.availableCounts (cs.map Count.value), n < bound) ↔
      ∀ c ∈ cs, c.value.natAbs + collisions cs < bound := by
  have hmem : ∀ n, n ∈ (((cs.map Count.value).map Int.natAbs).insertionSort (· ≤ ·)).dedup ↔
      ∃ c ∈ cs, c.value.natAbs = n := by
    intro n
    rw [List.mem_dedup, List.mem_insertionSort, List.map_map, List.mem_map]
    rfl
  have hlength : (((cs.map Count.value).map Int.natAbs).insertionSort (· ≤ ·)).dedup.length =
      (cs.map fun c => c.value.natAbs).dedup.length := by
    have hperm := (List.perm_insertionSort (· ≤ ·) ((cs.map Count.value).map Int.natAbs)).dedup.length_eq
    have hcomp : (cs.map Count.value).map Int.natAbs = cs.map fun c => c.value.natAbs := List.map_map
    rw [hperm, hcomp]
  have hnonempty : (((cs.map Count.value).map Int.natAbs).insertionSort (· ≤ ·)).dedup ≠ [] := by
    obtain ⟨c, hc⟩ := List.exists_mem_of_ne_nil cs hne
    exact List.ne_nil_of_mem ((hmem c.value.natAbs).mpr ⟨c, hc, rfl⟩)
  unfold TimelineData.availableCounts collisions
  rw [fillCounts_lt_iff bound _ hnonempty (TimelineData.dedup_increasing _), List.length_map, hlength]
  constructor
  · exact fun h c hc => h _ ((hmem _).mpr ⟨c, hc, rfl⟩)
  · intro h n hn
    obtain ⟨c, hc, rfl⟩ := (hmem n).mp hn
    exact h c hc

theorem availableCounts_increasing_iff (hlen : cs.length ≤ 2 ^ 63) :
    (availableCounts cs).Pairwise (fun a b => a.cmp b = .lt) ↔ CountsFit cs := by
  by_cases hne : cs = []
  · subst hne
    exact iff_of_true List.Pairwise.nil nofun
  unfold CountsFit
  rw [availableCounts_eq hvalid hlow hlen, List.pairwise_map, ← availableCounts_lt_iff _ hne]
  simp only [cmp_lt_iff]
  have hincreasing := TimelineData.availableCounts_increasing (cs.map Count.value)
  have hword : ∀ n ∈ TimelineData.availableCounts (cs.map Count.value), n < 2 ^ 64 := by
    rw [availableCounts_lt_iff _ hne]
    intro c hc
    have hlt := hlow c hc
    unfold collisions
    omega
  constructor
  · -- A count past the live ones is below the first count.
    intro hvalue n hn
    by_contra hpast
    obtain ⟨c, hc⟩ := List.exists_mem_of_ne_nil cs hne
    have hsmall := hlow c hc
    have hfirst : c.value.natAbs ∈ TimelineData.availableCounts (cs.map Count.value) := by
      refine mem_fillCounts _ (List.mem_dedup.mpr ((List.mem_insertionSort _).mpr ?_))
      exact List.mem_map_of_mem (List.mem_map_of_mem hc)
    have hlt := hincreasing.alike hvalue (fun _ _ => Nat.lt_asymm) hfirst hn (by omega)
    have hrange := hword n hn
    rw [value_live (by omega), value_live hrange, if_pos hsmall, if_neg hpast] at hlt
    omega
  · intro hbound
    refine hincreasing.imp_of_mem fun {m n} hm hn hlt => ?_
    have hm := hbound m hm
    have hn := hbound n hn
    rw [value_live (by omega), value_live (by omega), if_pos hm, if_pos hn]
    omega

end

/-! ## The collected rows -/

theorem raw_ext {p q : RawId} (hroom : room p = room q) (hvalue : p.pduCount.value = q.pduCount.value) : p = q :=
  le_antisymm ((StreamScans.raw_le_iff p q).mpr (Or.inr ⟨hroom, hvalue.le⟩))
    ((StreamScans.raw_le_iff q p).mpr (Or.inr ⟨hroom.symm, hvalue.ge⟩))

theorem ofId_pduCount (raw : RawId) : RawId.ofId ⟨room raw, raw.pduCount⟩ = raw :=
  raw_ext (StreamScans.room_countKey _ _) (StreamScans.value_countKey _ _)

theorem isNormal_pduCount (raw : RawId) : isNormal raw.pduCount = true ↔ 0 < raw.pduCount.value := by
  rw [StreamScans.value_pduCount]
  show isNormal (Count.fromSigned (signed raw)) = true ↔ _
  unfold Count.fromSigned
  split
  · exact iff_of_false nofun (by omega)
  · exact iff_of_true rfl (by omega)

def Inverse (t : Tables) : Prop := ∀ raw id, (raw, id) ∈ t.roomPducountEventid ↔ (id, raw) ∈ t.eventidPduid

abbrev PlacedTables := { t : Tables // Inverse t }

section
variable (t : Tables) (short : UInt64)

theorem value_seekBackfill : (pduCountToId short .min .forward).pduCount.value = -2 ^ 63 + 1 := by
  unfold pduCountToId
  rw [StreamScans.value_countKey, StreamScans.value_saturatingInc_forward (by decide)]
  rfl

theorem value_seekNormal : (pduCountToId short (.normal 0) .forward).pduCount.value = 1 := by
  unfold pduCountToId
  rw [StreamScans.value_countKey, StreamScans.value_saturatingInc_forward (by decide)]
  rfl

theorem room_seek (count : Count) : room (pduCountToId short count .forward) = short :=
  StreamScans.room_countKey _ _

theorem mem_backfillRows (row : RawId × EventId) :
    row ∈ (t.roomPducountEventid.scanFrom (pduCountToId short .min .forward)).takeWhile (fun row =>
        Data.startsWith (pduCountToId short .min .forward) row.1 && !isNormal row.1.pduCount) ↔
      row ∈ t.roomPducountEventid ∧ room row.1 = short ∧
        Count.min.value < row.1.pduCount.value ∧ row.1.pduCount.value ≤ 0 := by
  have hpass : ∀ raw : RawId,
      (Data.startsWith (pduCountToId short .min .forward) raw && !isNormal raw.pduCount) = true ↔
        room raw = short ∧ raw.pduCount.value ≤ 0 := by
    intro raw
    rw [Bool.and_eq_true, StreamScans.startsWith_iff, room_seek, Bool.not_eq_true', ← Bool.not_eq_true,
      isNormal_pduCount, not_lt]
  rw [SortedMap.takeWhile_scanFrom
      (p := fun raw => Data.startsWith (pduCountToId short .min .forward) raw && !isNormal raw.pduCount),
    List.mem_filter, SortedMap.mem_scanFrom, hpass, and_assoc]
  · refine and_congr_right fun _ => ?_
    rw [StreamScans.value_min]
    constructor
    · rintro ⟨hle, hroom, hvalue⟩
      rw [StreamScans.raw_grouped.rank_le_iff (by rw [room_seek, hroom]), value_seekBackfill] at hle
      exact ⟨hroom, by omega, hvalue⟩
    · rintro ⟨hroom, hlow, hvalue⟩
      refine ⟨?_, hroom, hvalue⟩
      rw [StreamScans.raw_grouped.rank_le_iff (by rw [room_seek, hroom]), value_seekBackfill]
      omega
  · intro a b hka hab hb
    rw [hpass] at hb ⊢
    have hroom := StreamScans.raw_grouped.between hka hab.le (by rw [room_seek, hb.1])
    have hroom := (UInt64.toNat_inj.mp hroom).trans hb.1
    refine ⟨hroom, ?_⟩
    have hlt := StreamScans.value_lt_of_lt hab (hroom.trans hb.1.symm)
    omega

theorem mem_normalRows (row : RawId × EventId) :
    row ∈ (t.roomPducountEventid.scanFrom (pduCountToId short (.normal 0) .forward)).takeWhile (fun row =>
        Data.startsWith (pduCountToId short .min .forward) row.1) ↔
      row ∈ t.roomPducountEventid ∧ room row.1 = short ∧ 0 < row.1.pduCount.value := by
  have hpass : ∀ raw : RawId, Data.startsWith (pduCountToId short .min .forward) raw = true ↔
      (room raw).toNat = (room (pduCountToId short (.normal 0) .forward)).toNat := by
    intro raw
    rw [StreamScans.startsWith_iff, room_seek, room_seek, UInt64.toNat_inj]
  rw [StreamScans.raw_grouped.mem_takeWhile_scanFrom hpass, room_seek, UInt64.toNat_inj, value_seekNormal]
  rfl

theorem mem_collectRows (row : RawId × EventId) : row ∈ t.collectRows short ↔
    row ∈ t.roomPducountEventid ∧ room row.1 = short ∧ Count.min.value < row.1.pduCount.value := by
  unfold Tables.collectRows
  rw [List.mem_append, mem_backfillRows, mem_normalRows, StreamScans.value_min, ← and_or_left, ← and_or_left]
  refine and_congr_right fun _ => and_congr_right fun _ => ?_
  omega

theorem pairwise_collectRows : (t.collectRows short).Pairwise fun a b => a.1 < b.1 := by
  refine List.pairwise_append.mpr ⟨?_, ?_, fun a ha b hb => ?_⟩
  · exact (SortedMap.pairwise_scanFrom _ _).sublist (List.takeWhile_sublist _)
  · exact (SortedMap.pairwise_scanFrom _ _).sublist (List.takeWhile_sublist _)
  · obtain ⟨-, haroom, -, ha⟩ := (mem_backfillRows t short a).mp ha
    obtain ⟨-, hbroom, hb⟩ := (mem_normalRows t short b).mp hb
    rw [StreamScans.raw_grouped.rank_lt_iff (by rw [haroom, hbroom])]
    omega

variable {t}

theorem nodup_collected (h : Inverse t) : (((t.collectRows short).map t.entry).map (·.1)).Nodup := by
  rw [List.map_map]
  refine List.Nodup.map_on (fun row hrow row' hrow' heq => ?_)
    ((pairwise_collectRows t short).imp fun hlt heq => absurd (congrArg Prod.fst heq) hlt.ne)
  -- One event has one row.
  obtain ⟨raw, id⟩ := row
  obtain ⟨raw', id'⟩ := row'
  obtain rfl : id = id' := heq
  have hid := (h raw id).mp ((mem_collectRows t short _).mp hrow).1
  have hid' := (h raw' id).mp ((mem_collectRows t short _).mp hrow').1
  rw [SortedMap.mem_unique hid hid']

theorem mem_collectReorderEntries (h : Inverse t) (e : EventId × Entry) :
    e ∈ t.collectReorderEntries short ↔ ∃ raw, (raw, e.1) ∈ t.roomPducountEventid ∧ room raw = short ∧
      Count.min.value < raw.pduCount.value ∧ e = t.entry (raw, e.1) := by
  unfold Tables.collectReorderEntries
  rw [SortedMap.mem_foldl_insert (nodup_collected short h), or_iff_left fun h => SortedMap.not_mem_empty _ h.1,
    List.mem_map]
  constructor
  · rintro ⟨⟨raw, id⟩, hrow, rfl⟩
    obtain ⟨hmem, hroom, hlow⟩ := (mem_collectRows t short _).mp hrow
    exact ⟨raw, hmem, hroom, hlow, rfl⟩
  · rintro ⟨raw, hmem, hroom, hlow, heq⟩
    exact ⟨(raw, e.1), (mem_collectRows t short _).mpr ⟨hmem, hroom, hlow⟩, heq.symm⟩

theorem mem_counts (h : Inverse t) {c : Count} (hc : c ∈ counts (t.collectReorderEntries short)) :
    c.Valid ∧ c.value.natAbs < 2 ^ 63 := by
  obtain ⟨e, he, rfl⟩ := List.mem_map.mp hc
  obtain ⟨raw, -, -, hlow, heq⟩ := (mem_collectReorderEntries short h e).mp he
  have hcount : e.2.count = raw.pduCount := by rw [heq]; rfl
  rw [hcount]
  refine ⟨(Count.fromSigned_is _).1, ?_⟩
  have hrange := StreamScans.value_inRange raw.pduCount
  rw [StreamScans.value_min] at hlow
  unfold InRange at hrange
  omega

end

/-! ## The batch -/

section
variable (t t' : Tables) (short : UInt64)

theorem commit_append (ops ops' : List DbOp) : t.commit (ops ++ ops') = (t.commit ops).commit ops' :=
  List.foldl_append

theorem commit_flatMap {A B : Type} (table : Tables → B) (ops : A → List DbOp) (step : B → A → B)
    (h : ∀ t' a, table (t'.commit (ops a)) = step (table t') a) (l : List A) :
    table (t'.commit (l.flatMap ops)) = l.foldl step (table t') := by
  induction l generalizing t' with
  | nil => rfl
  | cons a l ih => rw [List.flatMap_cons, commit_append, ih, h, List.foldl_cons]

theorem commit_clear : (t'.commit (t.clearRoomTopoOps short)).roomPducountEventid = t'.roomPducountEventid ∧
    (t'.commit (t.clearRoomTopoOps short)).eventidPduid = t'.eventidPduid := by
  unfold Tables.clearRoomTopoOps
  generalize t.roomidTopologicalorderPducount.entries.filter _ = rows
  induction rows generalizing t' with
  | nil => exact ⟨rfl, rfl⟩
  | cons row rows ih => exact ih _

theorem commit_removeOps (e : EventId × Entry) :
    (t'.commit (t.removeOps short e)).roomPducountEventid =
        t'.roomPducountEventid.remove (.ofId ⟨short, e.2.count⟩) ∧
      (t'.commit (t.removeOps short e)).eventidPduid = t'.eventidPduid.remove e.1 := by
  unfold Tables.removeOps
  cases t.eventidMetadata.get e.1 <;> exact ⟨rfl, rfl⟩

theorem commit_replaceOps (e : EventId × Count × UInt64) :
    (t'.commit (t.replaceOps short e)).roomPducountEventid =
        t'.roomPducountEventid.insert (.ofId ⟨short, e.2.1⟩) e.1 ∧
      (t'.commit (t.replaceOps short e)).eventidPduid = t'.eventidPduid.insert e.1 (.ofId ⟨short, e.2.1⟩) := by
  obtain ⟨id, count, depth⟩ := e
  unfold Tables.replaceOps
  simp only
  cases t.eventidMetadata.get id <;> exact ⟨rfl, rfl⟩

variable (entries : SortedMap EventId Entry) (sorted : List EventId) (available : List Count)

theorem replacements_eq : (Tables.replacements sorted available).map (fun e => (e.1, e.2.1)) =
    sorted.zip available := by
  unfold Tables.replacements
  rw [List.map_map]
  exact List.zipIdx_map_fst 0 _

theorem commit_stream : (t.commit (t.reindexBatch short entries sorted available)).roomPducountEventid =
    ((sorted.zip available).map fun e => (RawId.ofId ⟨short, e.2⟩, e.1)).foldl (fun m e => m.insert e.1 e.2)
      ((entries.entries.map fun e => RawId.ofId ⟨short, e.2.count⟩).foldl SortedMap.remove
        t.roomPducountEventid) := by
  unfold Tables.reindexBatch
  rw [commit_append, commit_append,
    commit_flatMap _ Tables.roomPducountEventid (t.replaceOps short)
      (fun m e => m.insert (.ofId ⟨short, e.2.1⟩) e.1)
      fun t' e => (commit_replaceOps t t' short e).1,
    commit_flatMap _ Tables.roomPducountEventid (t.removeOps short) (fun m e => m.remove (.ofId ⟨short, e.2.count⟩))
      fun t' e => (commit_removeOps t t' short e).1,
    (commit_clear t t short).1, ← replacements_eq, List.map_map, List.foldl_map, List.foldl_map]
  rfl

theorem commit_pduid : (t.commit (t.reindexBatch short entries sorted available)).eventidPduid =
    ((sorted.zip available).map fun e => (e.1, RawId.ofId ⟨short, e.2⟩)).foldl (fun m e => m.insert e.1 e.2)
      ((entries.entries.map (·.1)).foldl SortedMap.remove t.eventidPduid) := by
  unfold Tables.reindexBatch
  rw [commit_append, commit_append,
    commit_flatMap _ Tables.eventidPduid (t.replaceOps short) (fun m e => m.insert e.1 (.ofId ⟨short, e.2.1⟩))
      fun t' e => (commit_replaceOps t t' short e).2,
    commit_flatMap _ Tables.eventidPduid (t.removeOps short) (fun m e => m.remove e.1)
      fun t' e => (commit_removeOps t t' short e).2,
    (commit_clear t t short).2, ← replacements_eq, List.map_map, List.foldl_map, List.foldl_map]
  rfl

end

/-! ## The positions after the batch -/

theorem sortTimelineEvents_perm {entries : List SortEntry} (hn : (entries.map (·.id)).Nodup) :
    (sortTimelineEvents entries).Perm (entries.map (·.id)) := by
  unfold sortTimelineEvents
  generalize hnodes : List.map _ entries = nodes
  have hids : nodes.map (·.id) = entries.map (·.id) := by
    rw [← hnodes, List.map_map]
    rfl
  obtain ⟨greedy, cyclic, heq, horder⟩ := kahnSort_order (by rwa [hids])
  rw [heq, ← hids]
  exact horder.perm

theorem sortEntries_perm (prevEvents : EventId → List EventId) (entries : SortedMap EventId Entry) :
    (sortEntries prevEvents entries).Perm (entries.entries.map (·.1)) := by
  unfold sortEntries
  generalize hl : List.map _ entries.entries = l
  have hids : l.map (·.id) = entries.entries.map (·.1) := by
    rw [← hl, List.map_map]
    rfl
  rw [← hids]
  exact sortTimelineEvents_perm (by rw [hids]; exact entries.nodup_keys)

def Collected (short : UInt64) (raw : RawId) : Prop := room raw = short ∧ Count.min.value < raw.pduCount.value

structure NewCounts (t : Tables) (short : UInt64) (sorted : List EventId) (available : List Count) : Prop where
  perm : sorted.Perm ((t.collectReorderEntries short).entries.map (·.1))
  length : sorted.length = available.length
  increasing : available.Pairwise fun a b => a.value < b.value
  nonneg : ∀ c ∈ available, 0 ≤ c.value

section
variable {t : Tables} {short : UInt64} (h : Inverse t)
include h

theorem mem_ids (id : EventId) : id ∈ (t.collectReorderEntries short).entries.map (·.1) ↔
    ∃ raw, (raw, id) ∈ t.roomPducountEventid ∧ Collected short raw := by
  rw [List.mem_map]
  constructor
  · rintro ⟨e, he, rfl⟩
    obtain ⟨raw, hmem, hroom, hlow, -⟩ := (mem_collectReorderEntries short h e).mp he
    exact ⟨raw, hmem, hroom, hlow⟩
  · rintro ⟨raw, hmem, hroom, hlow⟩
    exact ⟨t.entry (raw, id), (mem_collectReorderEntries short h _).mpr ⟨raw, hmem, hroom, hlow, rfl⟩, rfl⟩

theorem mem_oldPduIds (raw : RawId) :
    raw ∈ (t.collectReorderEntries short).entries.map (fun e => RawId.ofId ⟨short, e.2.count⟩) ↔
      ∃ id, (raw, id) ∈ t.roomPducountEventid ∧ Collected short raw := by
  have hold : ∀ raw' id, room raw' = short → RawId.ofId ⟨short, (t.entry (raw', id)).2.count⟩ = raw' := by
    rintro raw' id rfl
    exact ofId_pduCount raw'
  rw [List.mem_map]
  constructor
  · rintro ⟨e, he, rfl⟩
    obtain ⟨raw, hmem, hroom, hlow, heq⟩ := (mem_collectReorderEntries short h e).mp he
    rw [heq, hold raw e.1 hroom]
    exact ⟨e.1, hmem, hroom, hlow⟩
  · rintro ⟨id, hmem, hroom, hlow⟩
    exact ⟨t.entry (raw, id), (mem_collectReorderEntries short h _).mpr ⟨raw, hmem, hroom, hlow, rfl⟩,
      hold raw id hroom⟩

variable {sorted : List EventId} {available : List Count} (hnew : NewCounts t short sorted available)
include hnew

omit h in
theorem nodup_newPduIds :
    (((sorted.zip available).map fun e => (RawId.ofId ⟨short, e.2⟩, e.1)).map (·.1)).Nodup := by
  have hsnd : (sorted.zip available).map Prod.snd = available := List.map_snd_zip (Nat.le_of_eq hnew.length.symm)
  have hkeys : ((sorted.zip available).map fun e => (RawId.ofId ⟨short, e.2⟩, e.1)).map (·.1) =
      available.map fun c => RawId.ofId ⟨short, c⟩ := by
    conv_rhs => rw [← hsnd, List.map_map]
    rw [List.map_map]
    rfl
  rw [hkeys]
  refine List.pairwise_map.mpr (hnew.increasing.imp fun {c d} hlt heq => ?_)
  have hvalue := congrArg (fun raw : RawId => raw.pduCount.value) heq
  rw [StreamScans.value_countKey, StreamScans.value_countKey] at hvalue
  omega

omit h in
theorem ids_eq : ((sorted.zip available).map fun e => (e.1, RawId.ofId ⟨short, e.2⟩)).map (·.1) = sorted := by
  rw [List.map_map]
  exact List.map_fst_zip (Nat.le_of_eq hnew.length)

omit h in
theorem collected_new {raw : RawId} {id : EventId}
    (hrow : (raw, id) ∈ (sorted.zip available).map fun e => (RawId.ofId ⟨short, e.2⟩, e.1)) :
    Collected short raw := by
  obtain ⟨⟨id', c⟩, he, heq⟩ := List.mem_map.mp hrow
  have hraw : RawId.ofId ⟨short, c⟩ = raw := congrArg Prod.fst heq
  have hnonneg := hnew.nonneg c (List.of_mem_zip he).2
  rw [← hraw]
  refine ⟨StreamScans.room_countKey short c, ?_⟩
  rw [StreamScans.value_countKey, StreamScans.value_min]
  omega

theorem mem_stream_after (raw : RawId) (id : EventId) : (raw, id) ∈
      (t.commit (t.reindexBatch short (t.collectReorderEntries short) sorted available)).roomPducountEventid ↔
      (id, raw) ∈ ((sorted.zip available).map fun e => (e.1, RawId.ofId ⟨short, e.2⟩)) ∨
        (raw, id) ∈ t.roomPducountEventid ∧ ¬Collected short raw := by
  have hswap : (raw, id) ∈ ((sorted.zip available).map fun e => (RawId.ofId ⟨short, e.2⟩, e.1)) ↔
      (id, raw) ∈ (sorted.zip available).map fun e => (e.1, RawId.ofId ⟨short, e.2⟩) := by
    simp only [List.mem_map, Prod.mk.injEq, and_comm]
  rw [commit_stream, SortedMap.mem_foldl_insert (nodup_newPduIds hnew), SortedMap.mem_foldl_remove, hswap,
    mem_oldPduIds h]
  refine or_congr_right ?_
  constructor
  · rintro ⟨⟨hmem, hold⟩, -⟩
    exact ⟨hmem, fun hcollected => hold ⟨id, hmem, hcollected⟩⟩
  · rintro ⟨hmem, hnot⟩
    refine ⟨⟨hmem, fun ⟨_, _, hcollected⟩ => hnot hcollected⟩, fun hkey => ?_⟩
    obtain ⟨row, hrow, rfl⟩ := List.mem_map.mp hkey
    exact hnot (collected_new hnew (show (row.1, row.2) ∈ _ from hrow))

theorem mem_pduid_after (raw : RawId) (id : EventId) : (id, raw) ∈
      (t.commit (t.reindexBatch short (t.collectReorderEntries short) sorted available)).eventidPduid ↔
      (id, raw) ∈ ((sorted.zip available).map fun e => (e.1, RawId.ofId ⟨short, e.2⟩)) ∨
        (raw, id) ∈ t.roomPducountEventid ∧ ¬Collected short raw := by
  have hnodup : sorted.Nodup := hnew.perm.nodup_iff.mpr (t.collectReorderEntries short).nodup_keys
  rw [commit_pduid, SortedMap.mem_foldl_insert (by rw [ids_eq hnew]; exact hnodup), ids_eq hnew,
    SortedMap.mem_foldl_remove, hnew.perm.mem_iff, and_assoc, and_self, ← h raw id, mem_ids h]
  refine or_congr_right (and_congr_right fun hmem => not_congr ?_)
  constructor
  · rintro ⟨raw', hmem', hcollected⟩
    -- One event has one row.
    have heq := SortedMap.mem_unique ((h raw' id).mp hmem') ((h raw id).mp hmem)
    exact heq ▸ hcollected
  · exact fun hcollected => ⟨raw, hmem, hcollected⟩

theorem inverse_after : Inverse
    (t.commit (t.reindexBatch short (t.collectReorderEntries short) sorted available)) :=
  fun raw id => (mem_stream_after h hnew raw id).trans (mem_pduid_after h hnew raw id).symm

theorem sameEvents_after (id : EventId) :
    (∃ raw, (raw, id) ∈
      (t.commit (t.reindexBatch short (t.collectReorderEntries short) sorted available)).roomPducountEventid ∧
        room raw = short) ↔ ∃ raw, (raw, id) ∈ t.roomPducountEventid ∧ room raw = short := by
  constructor
  · rintro ⟨raw, hraw, hroom⟩
    rcases (mem_stream_after h hnew raw id).mp hraw with hrow | ⟨hmem, -⟩
    · obtain ⟨e, he, heq⟩ := List.mem_map.mp hrow
      obtain rfl : e.1 = id := congrArg Prod.fst heq
      have hid : e.1 ∈ sorted := (List.of_mem_zip (show (e.1, e.2) ∈ _ from he)).1
      obtain ⟨raw', hmem, hcollected⟩ := (mem_ids h e.1).mp (hnew.perm.mem_iff.mp hid)
      exact ⟨raw', hmem, hcollected.1⟩
    · exact ⟨raw, hmem, hroom⟩
  · rintro ⟨raw, hmem, hroom⟩
    by_cases hcollected : Collected short raw
    · have hid : id ∈ sorted := hnew.perm.mem_iff.mpr ((mem_ids h id).mpr ⟨raw, hmem, hcollected⟩)
      rw [← ids_eq hnew] at hid
      obtain ⟨⟨id', raw'⟩, hrow, rfl⟩ := List.mem_map.mp hid
      refine ⟨raw', (mem_stream_after h hnew raw' id').mpr (Or.inl hrow), ?_⟩
      obtain ⟨e, -, heq⟩ := List.mem_map.mp hrow
      have hraw : RawId.ofId ⟨short, e.2⟩ = raw' := congrArg Prod.snd heq
      rw [← hraw]
      exact StreamScans.room_countKey short e.2
    · exact ⟨raw, (mem_stream_after h hnew raw id).mpr (Or.inr ⟨hmem, hcollected⟩), hroom⟩

end

/-! ## Renumbered rooms -/

section
variable {t : Tables} {short : UInt64} (h : Inverse t)
include h

theorem increasing_iff (hlen : (t.collectReorderEntries short).entries.length ≤ maxForceReindexEvents) :
    (availableCounts (counts (t.collectReorderEntries short))).Pairwise (fun a b => a.cmp b = .lt) ↔
      CountsFit (counts (t.collectReorderEntries short)) := by
  refine availableCounts_increasing_iff (fun c hc => (mem_counts short h hc).1)
    (fun c hc => (mem_counts short h hc).2) ?_
  unfold counts
  unfold maxForceReindexEvents at hlen
  rw [List.length_map]
  omega

theorem newCounts (prevEvents : EventId → List EventId)
    (hlen : (t.collectReorderEntries short).entries.length ≤ maxForceReindexEvents)
    (hfit : CountsFit (counts (t.collectReorderEntries short))) :
    NewCounts t short (sortEntries prevEvents (t.collectReorderEntries short))
      (availableCounts (counts (t.collectReorderEntries short))) := by
  have hperm := sortEntries_perm prevEvents (t.collectReorderEntries short)
  have hcounts : (counts (t.collectReorderEntries short)).length = (t.collectReorderEntries short).entries.length :=
    List.length_map _
  have heq := availableCounts_eq (fun c hc => (mem_counts short h (c := c) hc).1)
    (fun c hc => (mem_counts short h hc).2) (by unfold maxForceReindexEvents at hlen; omega)
  refine ⟨hperm, ?_, ?_, fun c hc => ?_⟩
  · rw [hperm.length_eq, heq, List.length_map, List.length_map, TimelineData.length_availableCounts,
      List.length_map,
      hcounts]
  · exact ((increasing_iff h hlen).mpr hfit).imp fun hlt => (cmp_lt_iff _ _).mp hlt
  · rw [heq] at hc
    obtain ⟨n, hn, rfl⟩ := List.mem_map.mp hc
    have hne : counts (t.collectReorderEntries short) ≠ [] := by
      intro hnil
      rw [hnil] at hn
      exact List.not_mem_nil hn
    have hlt := (availableCounts_lt_iff (2 ^ 63) hne).mpr hfit n hn
    rw [value_live (by omega), if_pos hlt]
    exact Int.natCast_nonneg n

theorem renumbered_of_newCounts {sorted : List EventId} {available : List Count}
    (hnew : NewCounts t short sorted available) :
    Renumbered t short ⟨sorted, available,
      t.commit (t.reindexBatch short (t.collectReorderEntries short) sorted available)⟩ where
  length := by rw [← hnew.length, hnew.perm.length_eq, List.length_map]
  nodup := hnew.increasing.imp fun hlt heq => absurd (congrArg Count.value heq) hlt.ne
  increasing := hnew.increasing.imp fun hlt => (cmp_lt_iff _ _).mpr hlt
  assigned e he := (mem_stream_after h hnew _ _).mpr (Or.inl (List.mem_map.mpr ⟨e, he, rfl⟩))
  inverse := inverse_after h hnew
  sameEvents := sameEvents_after h hnew

end

/-- A forced reindex renumbers its room if and only if the counts past the greatest that it
takes for collisions are still live ones. It is refused for missing parents that are not
allowed, and for rooms past the limit. -/
theorem forceReindex_renumbers_iff (prevEvents : EventId → List EventId) (t : PlacedTables) (short : UInt64)
    (allowIncomplete : Bool) :
    match forceReindex prevEvents t.1 short allowIncomplete with
    | .ok r => Renumbered t.1 short r ↔ CountsFit (counts (t.1.collectReorderEntries short))
    | .error _ => 0 < droppedParentEdges prevEvents (t.1.collectReorderEntries short) ∧ allowIncomplete = false ∨
        maxForceReindexEvents < (t.1.collectReorderEntries short).entries.length := by
  have hlength := (sortEntries_perm prevEvents (t.1.collectReorderEntries short)).length_eq
  rw [List.length_map] at hlength
  unfold forceReindex
  by_cases hnil : (t.1.collectReorderEntries short).entries = []
  · simp only [hnil, if_true]
    refine iff_of_true ⟨by rw [hnil]; rfl, List.nodup_nil, .nil, nofun, t.2, fun _ => Iff.rfl⟩ ?_
    intro c hc
    unfold counts at hc
    rw [hnil] at hc
    exact absurd hc List.not_mem_nil
  · simp only [hnil, if_false]
    by_cases hdropped : 0 < droppedParentEdges prevEvents (t.1.collectReorderEntries short) ∧
      allowIncomplete = false
    · rw [if_pos hdropped]
      exact Or.inl hdropped
    · rw [if_neg hdropped, if_neg (by omega)]
      by_cases hmany : maxForceReindexEvents < (sortEntries prevEvents (t.1.collectReorderEntries short)).length
      · rw [if_pos hmany]
        exact Or.inr (by omega)
      · rw [if_neg hmany]
        have hlen : (t.1.collectReorderEntries short).entries.length ≤ maxForceReindexEvents := by omega
        constructor
        · exact fun hrenumbered => (increasing_iff t.2 hlen).mp hrenumbered.increasing
        · exact fun hfit => renumbered_of_newCounts t.2 (newCounts t.2 prevEvents hlen hfit)

/-! ## Counts at the ends -/

/-- The greatest count, and the backfilled one that meets it. -/
def endsTables : Tables where
  roomPducountEventid := (SortedMap.empty.insert (.ofId ⟨1, .max⟩) "$a").insert
    (.ofId ⟨1, .backfilled (-9223372036854775807)⟩) "$b"
  eventidPduid := (SortedMap.empty.insert "$a" (.ofId ⟨1, .max⟩)).insert "$b"
    (.ofId ⟨1, .backfilled (-9223372036854775807)⟩)
  eventidMetadata := .empty
  roomidTopologicalorderPducount := .empty

theorem endsTables_inverse : Inverse endsTables := by
  have hkeys : RawId.ofId ⟨1, .max⟩ ≠ RawId.ofId ⟨1, .backfilled (-9223372036854775807)⟩ := by decide
  intro raw id
  unfold endsTables
  simp only [SortedMap.mem_insert, SortedMap.not_mem_empty, false_and, or_false, Prod.mk.injEq]
  constructor
  · rintro (⟨rfl, rfl⟩ | ⟨⟨rfl, rfl⟩, -⟩)
    · exact Or.inl ⟨rfl, rfl⟩
    · exact Or.inr ⟨⟨rfl, rfl⟩, by decide⟩
  · rintro (⟨rfl, rfl⟩ | ⟨⟨rfl, rfl⟩, -⟩)
    · exact Or.inl ⟨rfl, rfl⟩
    · exact Or.inr ⟨⟨rfl, rfl⟩, hkeys⟩

/-- The count past the greatest is stored as the least. -/
theorem ends_not_renumbered : Inverse endsTables ∧ ∃ r, forceReindex (fun _ => []) endsTables 1 false = .ok r ∧
    r.counts = [.max, .normal 9223372036854775808] ∧ ¬Renumbered endsTables 1 r := by
  have hrun : (match forceReindex (fun _ => []) endsTables 1 false with
      | .ok r => decide (r.counts = [.max, .normal 9223372036854775808])
      | .error _ => false) = true := by decide
  refine ⟨endsTables_inverse, ?_⟩
  cases hresult : forceReindex (fun _ => []) endsTables 1 false with
  | error e =>
    rw [hresult] at hrun
    exact nomatch hrun
  | ok r =>
    rw [hresult] at hrun
    have hcounts := of_decide_eq_true hrun
    refine ⟨r, rfl, hcounts, fun h => ?_⟩
    have hincreasing := h.increasing
    rw [hcounts] at hincreasing
    exact absurd ((List.pairwise_cons.mp hincreasing).1 _ (List.mem_singleton_self _)) (by decide)

end Congruent.ForceReindex
