import Mathlib.Data.List.Basic
import Congruent.ExtremityGraph
import Congruent.TipWrites

/-!
# Recalculating the tips of a room (`recalculate_extremities`)

The room's events are swept in chunks, the childless accepted ones become tips, and stored
tips outside the accepted events are kept. The result is written if it differs from what
is stored, and only then do the filters of the write apply.
-/

namespace Congruent.Recalculation

open ExtremityGraph TipWrites

/-! ## The stores -/

structure Stores where
  /-- The rows of a room's timeline, newest first; a row that cannot be read is none. -/
  roomShorteventids : RoomId → List (Option ShortEventId)
  shortprevevents : ShortEventId → Option (List ShortEventId)
  eventidFromShort : ShortEventId → Option EventId
  shorteventid : EventId → Option ShortEventId
  metadata : EventId → Option EventMetadata
  rejected : EventId → Bool
  softFailed : EventId → Bool
  originServerTs : EventId → Option Nat
  pduleaves : PduLeaves

/-- The reads of a call that fail, with their errors where these are returned. -/
structure Faults where
  verdictBatch : List EventId → Option String
  sweepMetadata : EventId → Bool
  rejected : EventId → Option String
  softFailed : EventId → Option String
  metadata : EventId → Option String
  listing : Bool
  scan : Bool

def tipReads (s : Stores) (f : Faults) : TipReads where
  isEventRejected id := (f.rejected id).elim (.ok (s.rejected id)) .error
  isEventSoftFailed id := (f.softFailed id).elim (.ok (s.softFailed id)) .error
  getEventMetadata id :=
    (f.metadata id).elim ((s.metadata id).elim (.error .notFound) .ok) fun error => .error (.other error)
  scanFails := f.scan

section
variable (s : Stores) (f : Faults)

/-! ## The sweep -/

structure Sweep where
  rawEdges : RawEdges
  acceptedEventIds : List ShortEventId
  bridgeEventIds : List ShortEventId

def verdictFlaggedBatch (eventIds : List EventId) : Except String (List EventId) :=
  if eventIds.isEmpty then .ok []
  else (f.verdictBatch eventIds).elim (.ok (eventIds.filter fun id => s.rejected id || s.softFailed id)) .error

def sweptMetadata (id : EventId) : Option EventMetadata := if f.sweepMetadata id then none else s.metadata id

/-- One event of a chunk: what is known of it, and what is left for the verdicts. -/
def sweepEvent (state : Sweep × List (ShortEventId × EventId)) (shortId : ShortEventId) :
    Sweep × List (ShortEventId × EventId) :=
  let prevs := (s.shortprevevents shortId).getD []
  let sweep := { state.1 with rawEdges := state.1.rawEdges.insert shortId prevs }
  match s.eventidFromShort shortId with
  | none => (sweep, state.2)
  | some eventId =>
    match sweptMetadata s f eventId with
    | none => ({ sweep with acceptedEventIds := sweep.acceptedEventIds.insert shortId }, state.2)
    | some metadata => if metadata.isOutlier then (sweep, state.2) else (sweep, state.2 ++ [(shortId, eventId)])

def sweepVerdict (flagged : List EventId) (sweep : Sweep) (pair : ShortEventId × EventId) : Sweep :=
  if pair.2 ∈ flagged then { sweep with bridgeEventIds := sweep.bridgeEventIds.insert pair.1 }
  else { sweep with acceptedEventIds := sweep.acceptedEventIds.insert pair.1 }

def sweepChunk (sweep : Sweep) (chunk : List (Option ShortEventId)) : Except String Sweep := do
  let state := (chunk.filterMap id).foldl (sweepEvent s f) (sweep, [])
  let flagged ← verdictFlaggedBatch s f (state.2.map (·.2))
  return state.2.foldl (sweepVerdict flagged) state.1

/-- A stream in chunks of `n + 1`. -/
def chunks {α : Type} (n : Nat) (l : List α) : List (List α) := (l.toChunksAux n 0).2

def sweepRoom (room : RoomId) : Except String Sweep :=
  (chunks 1023 (s.roomShorteventids room)).foldlM (sweepChunk s f) ⟨∅, [], []⟩

/-! ## Merging and writing -/

def mergeRecalculatedExtremities (trueExtremities : Finset EventId) (graphEventIds : List ShortEventId)
    (currentExtremities : List (EventId × Option ShortEventId)) : Finset EventId :=
  currentExtremities.foldl
    (fun set e => if e.2.all fun short => short ∉ graphEventIds then insert e.1 set else set) trueExtremities

/-- Whether the tips changed and how many there are, and the rows afterwards. Sets are
iterated in the order `iter` gives. -/
def recalculateExtremities (fuel : Nat)
    (findForwardExtremities : List (ShortEventId × List ShortEventId) → List ShortEventId)
    (iter : Finset EventId → List EventId) (maxExtremities : Nat) (room : RoomId) (updateDb : Bool) :
    Option (Except String (Bool × Nat) × PduLeaves) :=
  match sweepRoom s f room with
  | .error error => some (.error error, s.pduleaves)
  | .ok sweep =>
    (acceptedExtremityGraph fuel sweep.rawEdges sweep.acceptedEventIds sweep.bridgeEventIds).map fun graph =>
      let trueTips := findForwardExtremities graph
      let currentSet := if f.listing then ∅ else s.pduleaves room
      let trueExtremities := (trueTips.filterMap s.eventidFromShort).toFinset
      let currentExtremities := (iter currentSet).map fun eid => (eid, s.shorteventid eid)
      let merged := mergeRecalculatedExtremities trueExtremities sweep.acceptedEventIds currentExtremities
      let ts := fun eid => (s.originServerTs eid).getD 0
      let finalExtremities := (iter merged).insertionSort fun a b => ts a ≤ ts b
      if finalExtremities.toFinset = currentSet then (.ok (false, finalExtremities.length), s.pduleaves)
      else if updateDb then
        match setForwardExtremities (tipReads s f) maxExtremities room finalExtremities none s.pduleaves with
        | (.error error, leaves) => (.error error, leaves)
        | (.ok (), leaves) => (.ok (true, finalExtremities.length), leaves)
      else (.ok (true, finalExtremities.length), s.pduleaves)

/-! ## What the sweep finds -/

def missingMetadata (x : ShortEventId) : Bool := (s.eventidFromShort x).any fun id => (sweptMetadata s f id).isNone

def timelinePair (x : ShortEventId) : Option (ShortEventId × EventId) :=
  (s.eventidFromShort x).bind fun id =>
    (sweptMetadata s f id).bind fun metadata => if metadata.isOutlier then none else some (x, id)

def flagged (id : EventId) : Bool := s.rejected id || s.softFailed id

def countsAccepted (x : ShortEventId) : Bool :=
  missingMetadata s f x || (timelinePair s f x).any fun p => !flagged s p.2

def countsBridge (x : ShortEventId) : Bool := (timelinePair s f x).any fun p => flagged s p.2

variable {s f}

theorem timelinePair_fst {x : ShortEventId} {p : ShortEventId × EventId} (h : timelinePair s f x = some p) :
    p.1 = x := by
  obtain ⟨id, -, h⟩ := Option.bind_eq_some_iff.mp h
  obtain ⟨metadata, -, h⟩ := Option.bind_eq_some_iff.mp h
  split at h
  · cases h
  · cases h
    rfl

theorem flatten_toChunksAux {α : Type} (n : Nat) (l : List α) (i : Nat) :
    (l.toChunksAux n i).1 ++ (l.toChunksAux n i).2.flatten = l := by
  induction l generalizing i with
  | nil => rfl
  | cons x l ih =>
    cases i with
    | zero => simpa [List.toChunksAux] using ih n
    | succ i => simpa [List.toChunksAux] using ih i

theorem flatten_chunks {α : Type} (n : Nat) (l : List α) : (chunks n l).flatten = l := by
  have hfirst : (l.toChunksAux n 0).1 = [] := by cases l <;> rfl
  have h := flatten_toChunksAux n l 0
  rwa [hfirst, List.nil_append] at h

theorem sweepEvent_eq (sweep : Sweep) (pairs : List (ShortEventId × EventId)) (x : ShortEventId) :
    sweepEvent s f (sweep, pairs) x =
      (⟨sweep.rawEdges.insert x ((s.shortprevevents x).getD []),
        if missingMetadata s f x then sweep.acceptedEventIds.insert x else sweep.acceptedEventIds,
        sweep.bridgeEventIds⟩, pairs ++ (timelinePair s f x).toList) := by
  unfold sweepEvent missingMetadata timelinePair
  cases s.eventidFromShort x with
  | none => simp
  | some id =>
    cases hm : sweptMetadata s f id with
    | none => simp [hm]
    | some metadata => cases ho : metadata.isOutlier <;> simp [hm, ho]

/-- The loop over the events of a chunk. -/
structure SweptEvents (shorts : List ShortEventId) (sweep : Sweep) (pairs : List (ShortEventId × EventId))
    (state : Sweep × List (ShortEventId × EventId)) : Prop where
  rawEdges : ∀ x, state.1.rawEdges.lookup x =
    if x ∈ shorts then some ((s.shortprevevents x).getD []) else sweep.rawEdges.lookup x
  accepted : ∀ x, x ∈ state.1.acceptedEventIds ↔
    x ∈ sweep.acceptedEventIds ∨ x ∈ shorts ∧ missingMetadata s f x = true
  bridge : state.1.bridgeEventIds = sweep.bridgeEventIds
  pairs : state.2 = pairs ++ shorts.filterMap (timelinePair s f)

theorem foldl_sweepEvent (shorts : List ShortEventId) (sweep : Sweep) (pairs : List (ShortEventId × EventId)) :
    SweptEvents (s := s) (f := f) shorts sweep pairs (shorts.foldl (sweepEvent s f) (sweep, pairs)) := by
  induction shorts generalizing sweep pairs with
  | nil => exact ⟨fun x => by simp, fun x => by simp, rfl, by simp⟩
  | cons y shorts ih =>
    rw [List.foldl_cons, sweepEvent_eq]
    obtain ⟨hraw, hacc, hbridge, hpairs⟩ := ih _ (pairs ++ (timelinePair s f y).toList)
    refine ⟨fun x => ?_, fun x => ?_, hbridge, ?_⟩
    · rw [hraw, AList.lookup_insert_ite]
      by_cases hx : x ∈ shorts
      · simp [hx]
      · by_cases hxy : x = y <;> simp [hx, hxy]
    · rw [hacc, List.mem_cons]
      cases hm : missingMetadata s f y with
      | true =>
        simp only [if_true, List.mem_insert_iff]
        constructor
        · rintro ((rfl | hx) | hx)
          · exact Or.inr ⟨Or.inl rfl, hm⟩
          · exact Or.inl hx
          · exact Or.inr ⟨Or.inr hx.1, hx.2⟩
        · rintro (hx | ⟨rfl | hx, hmx⟩)
          · exact Or.inl (Or.inr hx)
          · exact Or.inl (Or.inl rfl)
          · exact Or.inr ⟨hx, hmx⟩
      | false =>
        simp only [Bool.false_eq_true, if_false]
        refine or_congr_right (and_congr_left fun hmx => (or_iff_right ?_).symm)
        rintro rfl
        rw [hm] at hmx
        cases hmx
    · rw [hpairs, List.append_assoc]
      congr 1
      cases hp : timelinePair s f y <;> simp [hp]

theorem foldl_sweepVerdict (bad : List EventId) (pairs : List (ShortEventId × EventId)) (sweep : Sweep) :
    (pairs.foldl (sweepVerdict bad) sweep).rawEdges = sweep.rawEdges ∧
    (∀ x, x ∈ (pairs.foldl (sweepVerdict bad) sweep).acceptedEventIds ↔
      x ∈ sweep.acceptedEventIds ∨ ∃ p ∈ pairs, p.1 = x ∧ p.2 ∉ bad) ∧
    ∀ x, x ∈ (pairs.foldl (sweepVerdict bad) sweep).bridgeEventIds ↔
      x ∈ sweep.bridgeEventIds ∨ ∃ p ∈ pairs, p.1 = x ∧ p.2 ∈ bad := by
  induction pairs generalizing sweep with
  | nil => simp
  | cons q pairs ih =>
    rw [List.foldl_cons]
    obtain ⟨hraw, hacc, hbridge⟩ := ih (sweepVerdict bad sweep q)
    by_cases hq : q.2 ∈ bad
    · have hstep : sweepVerdict bad sweep q = { sweep with bridgeEventIds := sweep.bridgeEventIds.insert q.1 } :=
        if_pos hq
      rw [hstep] at hraw hacc hbridge ⊢
      refine ⟨hraw, fun x => ?_, fun x => ?_⟩
      · rw [hacc, List.exists_mem_cons_iff]
        simp [hq]
      · rw [hbridge, List.exists_mem_cons_iff, List.mem_insert_iff]
        simp only [hq, and_true]
        tauto
    · have hstep : sweepVerdict bad sweep q =
          { sweep with acceptedEventIds := sweep.acceptedEventIds.insert q.1 } :=
        if_neg hq
      rw [hstep] at hraw hacc hbridge ⊢
      refine ⟨hraw, fun x => ?_, fun x => ?_⟩
      · rw [hacc, List.exists_mem_cons_iff, List.mem_insert_iff]
        simp only [hq, not_false_eq_true, and_true]
        tauto
      · rw [hbridge, List.exists_mem_cons_iff]
        simp [hq]

/-- What is known after a sweep of some events. -/
structure Swept (shorts : List ShortEventId) (sweep sweep' : Sweep) : Prop where
  rawEdges : ∀ x, sweep'.rawEdges.lookup x =
    if x ∈ shorts then some ((s.shortprevevents x).getD []) else sweep.rawEdges.lookup x
  accepted : ∀ x, x ∈ sweep'.acceptedEventIds ↔ x ∈ sweep.acceptedEventIds ∨ x ∈ shorts ∧
    countsAccepted s f x = true
  bridge : ∀ x, x ∈ sweep'.bridgeEventIds ↔ x ∈ sweep.bridgeEventIds ∨ x ∈ shorts ∧ countsBridge s f x = true

theorem mem_flaggedBatch {ids flaggedIds : List EventId} (h : verdictFlaggedBatch s f ids = .ok flaggedIds)
    {id : EventId} (hid : id ∈ ids) : id ∈ flaggedIds ↔ flagged s id = true := by
  unfold verdictFlaggedBatch at h
  split at h
  · rename_i hempty
    rw [List.isEmpty_iff.mp hempty] at hid
    cases hid
  · cases hf : f.verdictBatch ids with
    | some error =>
      rw [hf] at h
      cases h
    | none =>
      rw [hf] at h
      cases h
      rw [List.mem_filter, and_iff_right hid]
      rfl

theorem exists_pair_iff (shorts : List ShortEventId) (x : ShortEventId) (P : EventId → Prop) :
    (∃ p ∈ shorts.filterMap (timelinePair s f), p.1 = x ∧ P p.2) ↔
      x ∈ shorts ∧ ∃ p, timelinePair s f x = some p ∧ P p.2 := by
  constructor
  · rintro ⟨p, hp, rfl, hP⟩
    obtain ⟨y, hy, hpair⟩ := List.mem_filterMap.mp hp
    rw [timelinePair_fst hpair]
    exact ⟨hy, p, hpair, hP⟩
  · rintro ⟨hx, p, hpair, hP⟩
    exact ⟨p, List.mem_filterMap.mpr ⟨x, hx, hpair⟩, timelinePair_fst hpair, hP⟩

theorem swept_sweepChunk {sweep sweep' : Sweep} {chunk : List (Option ShortEventId)}
    (h : sweepChunk s f sweep chunk = .ok sweep') :
    Swept (s := s) (f := f) (chunk.filterMap id) sweep sweep' := by
  have hev := foldl_sweepEvent (s := s) (f := f) (chunk.filterMap id) sweep []
  simp only [sweepChunk] at h
  cases hflagged : verdictFlaggedBatch s f
      (((chunk.filterMap id).foldl (sweepEvent s f) (sweep, [])).2.map (·.2)) with
  | error error =>
    rw [hflagged] at h
    cases h
  | ok bad =>
    rw [hflagged] at h
    cases h
    obtain ⟨hraw, hacc, hbridge⟩ := foldl_sweepVerdict bad
      ((chunk.filterMap id).foldl (sweepEvent s f) (sweep, [])).2
      ((chunk.filterMap id).foldl (sweepEvent s f) (sweep, [])).1
    have hpairs : ((chunk.filterMap id).foldl (sweepEvent s f) (sweep, [])).2 =
        (chunk.filterMap id).filterMap (timelinePair s f) := hev.pairs
    have hbad : ∀ p ∈ (chunk.filterMap id).filterMap (timelinePair s f), p.2 ∈ bad ↔ flagged s p.2 = true := by
      intro p hp
      refine mem_flaggedBatch hflagged ?_
      rw [hpairs]
      exact List.mem_map.mpr ⟨p, hp, rfl⟩
    refine ⟨fun x => ?_, fun x => ?_, fun x => ?_⟩
    · rw [hraw, hev.rawEdges]
    · rw [hacc, hev.accepted, hpairs]
      have hex : (∃ p ∈ (chunk.filterMap id).filterMap (timelinePair s f), p.1 = x ∧ p.2 ∉ bad) ↔
          ∃ p ∈ (chunk.filterMap id).filterMap (timelinePair s f), p.1 = x ∧ flagged s p.2 = false :=
        exists_congr fun p => and_congr_right fun hp => by rw [hbad p hp, Bool.not_eq_true]
      rw [hex, exists_pair_iff _ _ fun id => flagged s id = false, or_assoc, ← and_or_left]
      refine or_congr_right (and_congr_right fun _ => ?_)
      rw [countsAccepted, Bool.or_eq_true, Option.any_eq_true]
      simp
    · rw [hbridge, hev.bridge, hpairs]
      have hex : (∃ p ∈ (chunk.filterMap id).filterMap (timelinePair s f), p.1 = x ∧ p.2 ∈ bad) ↔
          ∃ p ∈ (chunk.filterMap id).filterMap (timelinePair s f), p.1 = x ∧ flagged s p.2 = true :=
        exists_congr fun p => and_congr_right fun hp => by rw [hbad p hp]
      rw [hex, exists_pair_iff _ _ fun id => flagged s id = true, countsBridge, Option.any_eq_true]

theorem swept_foldlM {sweep sweep' : Sweep} {parts : List (List (Option ShortEventId))}
    (h : parts.foldlM (sweepChunk s f) sweep = .ok sweep') :
    Swept (s := s) (f := f) (parts.flatten.filterMap id) sweep sweep' := by
  induction parts generalizing sweep with
  | nil =>
    cases h
    exact ⟨fun x => by simp, fun x => by simp, fun x => by simp⟩
  | cons part parts ih =>
    rw [List.foldlM_cons] at h
    cases hpart : sweepChunk s f sweep part with
    | error error =>
      rw [hpart] at h
      cases h
    | ok mid =>
      rw [hpart] at h
      obtain ⟨hraw, hacc, hbridge⟩ := ih h
      obtain ⟨hraw', hacc', hbridge'⟩ := swept_sweepChunk hpart
      refine ⟨fun x => ?_, fun x => ?_, fun x => ?_⟩
      · rw [hraw, hraw', List.flatten_cons, List.filterMap_append]
        simp only [List.mem_append]
        by_cases hx : x ∈ parts.flatten.filterMap id
        · rw [if_pos hx, if_pos (Or.inr hx)]
        · rw [if_neg hx]
          simp only [hx, or_false]
      · rw [hacc, hacc', List.flatten_cons, List.filterMap_append, List.mem_append]
        tauto
      · rw [hbridge, hbridge', List.flatten_cons, List.filterMap_append, List.mem_append]
        tauto

/-! ## The tips, read off the stores -/

section
variable (s : Stores) (f : Faults) (room : RoomId)

def InRoom (x : ShortEventId) : Prop := some x ∈ s.roomShorteventids room

def IsAccepted (x : ShortEventId) : Prop := InRoom s room x ∧ countsAccepted s f x = true

def IsBridge (x : ShortEventId) : Prop := InRoom s room x ∧ countsBridge s f x = true

def prevs (x : ShortEventId) : List ShortEventId :=
  if some x ∈ s.roomShorteventids room then (s.shortprevevents x).getD [] else []

def IsTip (id : EventId) : Prop :=
  ∃ x, CalculatedTip (prevs s room) (IsAccepted s f room) (IsBridge s f room) x ∧ s.eventidFromShort x = some id

/-- The stored tips, as far as they can be listed. -/
def listed : Finset EventId := if f.listing then ∅ else s.pduleaves room

def IsRetained (id : EventId) : Prop :=
  id ∈ listed s f room ∧ ∀ x, s.shorteventid id = some x → ¬IsAccepted s f room x

/-- Some tip is not stored, or some stored tip is an accepted event that is no tip. -/
def TipsChange : Prop :=
  (∃ id, IsTip s f room id ∧ id ∉ listed s f room) ∨
    ∃ id ∈ listed s f room, ¬IsTip s f room id ∧ ¬IsRetained s f room id

def Clean (id : EventId) : Prop :=
  s.rejected id = false ∧ s.softFailed id = false ∧
    ∀ metadata, s.metadata id = some metadata → metadata.isOutlier = false

variable {s f room}

theorem sweepRoom_reads {sweep : Sweep} (hsweep : sweepRoom s f room = .ok sweep) :
    prevsOf sweep.rawEdges = prevs s room ∧
      (· ∈ sweep.acceptedEventIds) = IsAccepted s f room ∧ (· ∈ sweep.bridgeEventIds) = IsBridge s f room := by
  have hswept := swept_foldlM hsweep
  rw [flatten_chunks] at hswept
  have hroom : ∀ x, x ∈ (s.roomShorteventids room).filterMap id ↔ some x ∈ s.roomShorteventids room :=
    fun x => by simp
  refine ⟨?_, ?_, ?_⟩ <;> funext x
  · unfold prevsOf prevs
    rw [hswept.rawEdges, if_congr (hroom x) rfl rfl]
    split <;> simp
  · rw [hswept.accepted, hroom, or_iff_right List.not_mem_nil]
    rfl
  · rw [hswept.bridge, hroom, or_iff_right List.not_mem_nil]
    rfl

theorem mem_mergeRecalculatedExtremities (trueExtremities : Finset EventId) (graphEventIds : List ShortEventId)
    (current : List (EventId × Option ShortEventId)) (id : EventId) :
    id ∈ mergeRecalculatedExtremities trueExtremities graphEventIds current ↔
      id ∈ trueExtremities ∨ ∃ e ∈ current, e.1 = id ∧ ∀ x, e.2 = some x → x ∉ graphEventIds := by
  unfold mergeRecalculatedExtremities
  induction current generalizing trueExtremities with
  | nil => simp
  | cons e current ih =>
    rw [List.foldl_cons, ih, List.exists_mem_cons_iff, ← or_assoc]
    refine or_congr_left ?_
    have hall : (e.2.all fun short => decide (short ∉ graphEventIds)) = true ↔
        ∀ x, e.2 = some x → x ∉ graphEventIds := by
      cases e.2 <;> simp
    by_cases he : ∀ x, e.2 = some x → x ∉ graphEventIds
    · rw [if_pos (hall.mpr he), Finset.mem_insert, and_iff_left he, or_comm, eq_comm]
    · rw [if_neg (hall.not.mpr he), or_iff_left fun hand => he hand.2]

variable {find : List (ShortEventId × List ShortEventId) → List ShortEventId} {iter : Finset EventId → List EventId}

/-- After a sweep the tips are those read off the stores, and they are written if they differ
from those listed. -/
theorem recalculate_of_sweep (htips : FindsTips find) (hiter : ∀ set id, id ∈ iter set ↔ id ∈ set) {sweep : Sweep}
    (hsweep : sweepRoom s f room = .ok sweep) {fuel : Nat}
    (hfuel : walkSteps sweep.rawEdges sweep.acceptedEventIds sweep.bridgeEventIds ≤ fuel) (maxExtremities : Nat) :
    ∃ final : List EventId, (∀ id, id ∈ final ↔ IsTip s f room id ∨ IsRetained s f room id) ∧
      recalculateExtremities s f fuel find iter maxExtremities room true =
        some (if final.toFinset = listed s f room then (.ok (false, final.length), s.pduleaves)
          else match setForwardExtremities (tipReads s f) maxExtremities room final none s.pduleaves with
            | (.error error, leaves) => (.error error, leaves)
            | (.ok (), leaves) => (.ok (true, final.length), leaves)) := by
  obtain ⟨hprevs, haccepted, hbridge⟩ := sweepRoom_reads hsweep
  obtain ⟨graph, hgraph, hkeys, hrows⟩ := exists_graph hfuel
  have htip : ∀ id, id ∈ ((find graph).filterMap s.eventidFromShort).toFinset ↔ IsTip s f room id := by
    intro id
    rw [List.mem_toFinset, List.mem_filterMap]
    refine exists_congr fun x => and_congr_left fun _ => ?_
    rw [mem_findForwardExtremities hkeys hrows htips, hprevs, haccepted, hbridge]
  unfold recalculateExtremities
  rw [hsweep]
  simp only [hgraph, Option.map_some, if_true]
  refine ⟨_, fun id => ?_, rfl⟩
  rw [List.mem_insertionSort, hiter, mem_mergeRecalculatedExtremities, htip]
  refine or_congr_right ?_
  simp only [List.mem_map]
  constructor
  · rintro ⟨e, ⟨eid, hlisted, rfl⟩, rfl, hout⟩
    rw [hiter] at hlisted
    refine ⟨hlisted, fun x hx => ?_⟩
    rw [← haccepted]
    exact hout x hx
  · rintro ⟨hlisted, hout⟩
    refine ⟨_, ⟨id, (hiter _ _).mpr hlisted, rfl⟩, rfl, fun x hx => ?_⟩
    have := hout x hx
    rwa [← haccepted] at this

theorem final_ne_iff {final : List EventId}
    (hfinal : ∀ id, id ∈ final ↔ IsTip s f room id ∨ IsRetained s f room id) :
    final.toFinset ≠ listed s f room ↔ TipsChange s f room := by
  unfold TipsChange
  constructor
  · intro hne
    by_contra hno
    refine hne (Finset.ext fun id => ?_)
    rw [not_or] at hno
    rw [List.mem_toFinset, hfinal]
    constructor
    · rintro (htip | hret)
      · by_contra hnot
        exact hno.1 ⟨id, htip, hnot⟩
      · exact hret.1
    · intro hid
      by_contra hnot
      rw [not_or] at hnot
      exact hno.2 ⟨id, hid, hnot.1, hnot.2⟩
  · rintro (⟨id, htip, hnot⟩ | ⟨id, hid, htip, hret⟩) heq
    · rw [← heq, List.mem_toFinset, hfinal] at hnot
      exact hnot (Or.inl htip)
    · rw [← heq, List.mem_toFinset, hfinal] at hid
      exact hid.elim htip hret

theorem clean_of_admitted {id : EventId} (h : Admitted (tipReads s f) none id) : Clean s id := by
  rcases h with h | ⟨hrejected, hsoft, metadata, hm, ho⟩
  · cases h
  · unfold tipReads at hrejected hsoft hm
    cases hfr : f.rejected id with
    | some e => simp [hfr] at hrejected
    | none =>
      cases hfs : f.softFailed id with
      | some e => simp [hfs] at hsoft
      | none =>
        cases hfm : f.metadata id with
        | some e => simp [hfm] at hm
        | none =>
          simp only [hfr, Option.elim_none, Except.ok.injEq] at hrejected
          simp only [hfs, Option.elim_none, Except.ok.injEq] at hsoft
          refine ⟨hrejected, hsoft, fun m hsm => ?_⟩
          simp only [hfm, hsm, Option.elim_none, Option.elim_some, Except.ok.injEq] at hm
          rw [hm]
          exact ho

/-- A write that succeeds leaves only clean tips if they were clean before, or if one of the given
tips is admitted and the old rows can be listed, so that they go. -/
theorem written_clean_iff {maxExtremities : Nat} {final : List EventId} {leaves : PduLeaves}
    (hset : setForwardExtremities (tipReads s f) maxExtremities room final none s.pduleaves = (.ok (), leaves)) :
    (∀ id ∈ leaves room, Clean s id) ↔ (∀ id ∈ s.pduleaves room, Clean s id) ∨
      f.scan = false ∧ ∃ id ∈ final, Admitted (tipReads s f) none id := by
  rcases setForwardExtremities_cases (tipReads s f) maxExtremities room final none s.pduleaves with
    ⟨error, hset'⟩ | ⟨hnone, hset'⟩ | ⟨eligible, hne, hadmitted, hset'⟩
  · rw [hset'] at hset
    cases hset
  · rw [hset'] at hset
    cases hset
    refine ⟨Or.inl, fun hcond => hcond.elim id ?_⟩
    rintro ⟨-, x, hx, hadm⟩
    exact absurd hadm (hnone x hx)
  · rw [hset'] at hset
    cases hset
    rw [Function.update_self]
    have hkept : ∀ id ∈ (eligible.drop (eligible.length - maxExtremities)).toFinset, Clean s id := by
      intro id hid
      rw [List.mem_toFinset] at hid
      exact clean_of_admitted (hadmitted id (List.mem_of_mem_drop hid)).2
    cases hscan : f.scan with
    | true =>
      -- the old rows stay beside the new ones
      rw [show (tipReads s f).scanFails = true from hscan, if_pos rfl]
      refine ⟨fun hclean => Or.inl fun id hid => hclean id (Finset.mem_union_left _ hid), fun hcond id hid => ?_⟩
      have hclean := hcond.resolve_right (by simp)
      exact (Finset.mem_union.mp hid).elim (hclean id) (hkept id)
    | false =>
      rw [show (tipReads s f).scanFails = false from hscan, if_neg Bool.false_ne_true, Finset.empty_union]
      obtain ⟨id, hid⟩ := List.exists_mem_of_ne_nil eligible hne
      exact ⟨fun _ => Or.inr ⟨rfl, id, hadmitted id hid⟩, fun _ => hkept⟩

/-! ## When recalculating cleans -/

/-- After a recalculation that succeeds and may write, no stored tip is rejected, soft-failed or
an outlier if and only if none was before, or the tips change, one of them may be stored, and
the rows can be listed when they are replaced. -/
theorem recalculate_cleans_iff (s : Stores) (f : Faults) (room : RoomId)
    (find : List (ShortEventId × List ShortEventId) → List ShortEventId) (iter : Finset EventId → List EventId)
    (maxExtremities : Nat) (htips : FindsTips find) (hiter : ∀ set id, id ∈ iter set ↔ id ∈ set) :
    ∃ n, ∀ fuel, n ≤ fuel →
      (recalculateExtremities s f fuel find iter maxExtremities room true).isSome = true ∧
      ∀ result leaves,
        recalculateExtremities s f fuel find iter maxExtremities room true = some (.ok result, leaves) →
          ((∀ id ∈ leaves room, Clean s id) ↔
            (∀ id ∈ s.pduleaves room, Clean s id) ∨ f.scan = false ∧ TipsChange s f room ∧
              ∃ id, (IsTip s f room id ∨ IsRetained s f room id) ∧ Admitted (tipReads s f) none id) := by
  cases hsweep : sweepRoom s f room with
  | error error =>
    refine ⟨0, fun fuel _ => ?_⟩
    unfold recalculateExtremities
    rw [hsweep]
    refine ⟨rfl, fun result leaves h => ?_⟩
    cases h
  | ok sweep =>
    refine ⟨walkSteps sweep.rawEdges sweep.acceptedEventIds sweep.bridgeEventIds, fun fuel hfuel => ?_⟩
    obtain ⟨final, hfinal, hrun⟩ := recalculate_of_sweep htips hiter hsweep hfuel maxExtremities
    rw [hrun]
    refine ⟨rfl, fun result leaves h => ?_⟩
    rw [Option.some.injEq] at h
    by_cases hsame : final.toFinset = listed s f room
    · rw [if_pos hsame] at h
      cases h
      refine ⟨Or.inl, fun hcond => hcond.elim id fun hchange => ?_⟩
      exact absurd hsame ((final_ne_iff hfinal).mpr hchange.2.1)
    · have hchange : TipsChange s f room := (final_ne_iff hfinal).mp hsame
      rw [if_neg hsame] at h
      cases hset : setForwardExtremities (tipReads s f) maxExtremities room final none s.pduleaves with
      | mk written leaves' =>
        rw [hset] at h
        cases written with
        | error error => cases h
        | ok =>
          cases h
          rw [written_clean_iff hset]
          simp only [hfinal, hchange, true_and]

end

end

/-- A room with the one event `$a`; `$bad` is an outlier. -/
def oneEvent (tips : Finset EventId) : Stores where
  roomShorteventids _ := [some 1]
  shortprevevents _ := some []
  eventidFromShort x := if x = 1 then some "$a" else none
  shorteventid id := if id = "$a" then some 1 else none
  metadata id := if id = "$a" then some ⟨false, some 1⟩ else some ⟨true, none⟩
  rejected _ := false
  softFailed _ := false
  originServerTs _ := none
  pduleaves _ := tips

local instance : IsTrans EventId (· ≤ ·) := inferInstance

local instance : @Std.Antisymm EventId (· ≤ ·) := inferInstance

def byId (set : Finset EventId) : List EventId := set.sort (· ≤ ·)

theorem mem_byId (set : Finset EventId) (id : EventId) : id ∈ byId set ↔ id ∈ set := by
  simp [byId]

def noFaults : Faults where
  verdictBatch _ := none
  sweepMetadata _ := false
  rejected _ := none
  softFailed _ := none
  metadata _ := none
  listing := false
  scan := false

section
variable (tips : Finset EventId)

theorem oneEvent_accepted (x : ShortEventId) : IsAccepted (oneEvent tips) noFaults "!r" x ↔ x = 1 := by
  constructor
  · intro h
    simpa [InRoom, oneEvent] using h.1
  · rintro rfl
    exact ⟨List.mem_singleton_self _, rfl⟩

theorem oneEvent_tip (id : EventId) : IsTip (oneEvent tips) noFaults "!r" id ↔ id = "$a" := by
  constructor
  · rintro ⟨x, htip, hid⟩
    rw [(oneEvent_accepted tips x).mp htip.1] at hid
    exact (Option.some.inj hid).symm
  · rintro rfl
    refine ⟨1, ⟨(oneEvent_accepted tips 1).mpr rfl, fun a _ hparent => ?_⟩, rfl⟩
    have hnone : ∀ x, prevs (oneEvent tips) "!r" x = [] := fun x => by simp [prevs, oneEvent]
    cases hparent.2 with
    | edge h | bridge h =>
      rw [hnone] at h
      cases h

end

/-- Where the outlier is the only stored tip, the event takes its place. -/
theorem recalculate_cleans_oneEvent : ∃ n, ∀ fuel, n ≤ fuel → ∀ result leaves,
    recalculateExtremities (oneEvent {"$bad"}) noFaults fuel childless byId 10 "!r" true =
      some (.ok result, leaves) → ∀ id ∈ leaves "!r", Clean (oneEvent {"$bad"}) id := by
  obtain ⟨n, h⟩ := recalculate_cleans_iff (oneEvent {"$bad"}) noFaults "!r" childless byId 10
    childless_findsTips mem_byId
  refine ⟨n, fun fuel hfuel result leaves hrun => ((h fuel hfuel).2 result leaves hrun).mpr (Or.inr ⟨rfl, ?_, ?_⟩)⟩
  · exact Or.inl ⟨"$a", (oneEvent_tip _ _).mpr rfl, by simp [listed, oneEvent, noFaults]⟩
  · exact ⟨"$a", Or.inl ((oneEvent_tip _ _).mpr rfl), Or.inr ⟨rfl, rfl, ⟨false, some 1⟩, rfl, rfl⟩⟩

/-- Where the outlier is stored beside the one tip, nothing changes and it stays. -/
theorem recalculate_keeps_outlier : ∃ n,
    recalculateExtremities (oneEvent {"$a", "$bad"}) noFaults 9 childless byId 10 "!r" true =
      some (.ok (false, n), (oneEvent {"$a", "$bad"}).pduleaves) ∧
    "$bad" ∈ (oneEvent {"$a", "$bad"}).pduleaves "!r" ∧ ¬Clean (oneEvent {"$a", "$bad"}) "$bad" ∧
    IsAccepted (oneEvent {"$a", "$bad"}) noFaults "!r" 1 := by
  have hsweep : sweepRoom (oneEvent {"$a", "$bad"}) noFaults "!r" = .ok ⟨AList.insert 1 [] ∅, [1], []⟩ := rfl
  obtain ⟨final, hfinal, hrun⟩ := recalculate_of_sweep childless_findsTips
    mem_byId hsweep (show _ ≤ 9 by decide) 10
  have hsame : final.toFinset = listed (oneEvent {"$a", "$bad"}) noFaults "!r" := by
    by_contra hne
    rcases (final_ne_iff hfinal).mp hne with ⟨id, htip, hnot⟩ | ⟨id, hid, htip, hret⟩
    · rw [(oneEvent_tip _ id).mp htip] at hnot
      exact hnot (by decide)
    · have hne : id ≠ "$a" := fun heq => htip ((oneEvent_tip _ id).mpr heq)
      exact hret ⟨hid, fun x hx => by simp [oneEvent, hne] at hx⟩
  rw [hrun, if_pos hsame]
  refine ⟨final.length, rfl, by decide, fun hclean => ?_, (oneEvent_accepted _ 1).mpr rfl⟩
  cases hclean.2.2 ⟨true, none⟩ rfl

end Congruent.Recalculation
