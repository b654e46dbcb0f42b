import Congruent.StreamPositions

/-!
# Operations on the timeline (`timeline/data.rs`, `timeline/reorder.rs`)

What moves and removes events of the timeline after they were inserted. Each operation is
one step.
-/

namespace Congruent.TimelineData

def fillCounts : Nat → List Nat → List Nat
  | 0, available => available
  | n + 1, available => fillCounts n (available ++ [(available.getLast?.map (· + 1)).getD 1])

def availableCounts (counts : List Int) : List Nat :=
  let available := ((counts.map Int.natAbs).insertionSort (· ≤ ·)).dedup
  fillCounts (counts.length - available.length) available

/-- An event with its new position and depth. -/
structure Replaced where
  eventId : EventId
  pduId : PduId
  depth : Nat

namespace Tables

/-! ## Removing -/

/-- `remove_topo_pducount`. -/
def removeTopo (t : Tables) (p : PduId) (id : EventId) : Tables :=
  { t with
    roomidTopologicalorderPducount :=
      match t.eventidMetadata.lookup id with
      | some m => t.roomidTopologicalorderPducount.erase (topoPducountKey p m.depth)
      | none => t.roomidTopologicalorderPducount }

def removePosition (t : Tables) (p : PduId) (id : EventId) : Tables :=
  removeTopo { t with
    eventidPduid := t.eventidPduid.erase id
    roomPducountEventid := t.roomPducountEventid.erase p } p id

def removeFromTimeline (t : Tables) (id : EventId) : Tables :=
  match t.getPduId id with
  | some p =>
    let t := t.removePosition p id
    if t.outlierPduExists id then t
    else { t with
      eventidPdu := t.eventidPdu.erase id
      eventidMetadata := t.eventidMetadata.erase id }
  | none => t

def removeTimelinePointers (t : Tables) (id : EventId) : Tables :=
  let t := match t.getPduId id with
    | some p => t.removePosition p id
    | none => t
  { t with eventidMetadata := t.eventidMetadata.erase id }

/-! ## Writing over -/

/-- `add_pdu_outlier`. `decoded` is the event that the object decodes to. -/
def addPduOutlier (t : Tables) (id : EventId) (shortroomid : Nat) (json : Object) (decoded : Option Pdu) : Tables :=
  if (t.eventidMetadata.lookup id).any fun m => !m.isOutlier then t
  else { t with
    eventidPdu := t.eventidPdu.insert id (json.insert "event_id" (.str id))
    eventidMetadata :=
      match decoded with
      | some pdu => t.eventidMetadata.insert id ⟨shortroomid, true, pdu.originServerTs, pdu.depth, 0, none⟩
      | none => t.eventidMetadata }

/-- `replace_pdu`, which refuses a position without a row. -/
def replacePdu (t : Tables) (p : PduId) (json : Object) (id : EventId) (decoded : Option Pdu) : Option Tables :=
  if (t.roomPducountEventid.lookup p).isNone then none
  else
    let t := { t with eventidPdu := t.eventidPdu.insert id json }
    some (match decoded with
      | some pdu => { t with
        roomidTopologicalorderPducount :=
          t.roomidTopologicalorderPducount.insert (topoPducountKey p pdu.depth) id
        eventidMetadata := t.eventidMetadata.insert id ⟨p.shortroomid, false, pdu.originServerTs,
          pdu.depth, pdu.depth,
          match p.pduCount with
          | .normal n => some n
          | .backfilled _ => none⟩ }
      | none => t)

/-- `reindex_topo_batch`. -/
def reindexTopo (t : Tables) (p : PduId) (id : EventId) (newTopoDepth : Nat) : Tables :=
  { t with
    roomidTopologicalorderPducount :=
      (match t.eventidMetadata.lookup id with
        | some m => t.roomidTopologicalorderPducount.erase (topoPducountKey p m.deprecatedLocalTopoDepth)
        | none => t.roomidTopologicalorderPducount).insert (topoPducountKey p newTopoDepth) id
    eventidMetadata := t.eventidMetadata.adjust id fun m => { m with deprecatedLocalTopoDepth := newTopoDepth } }

/-! ## Reordering -/

/-- `collect_reorder_entries`: the events of the room, with their counts. -/
def collectReorderEntries (t : Tables) (room : Nat) : AList fun _ : EventId => Int :=
  ((t.roomPducountEventid.entries.filter fun r => r.1.shortroomid = room).insertionSort
    fun r r' => r.1.shorteventid ≤ r'.1.shorteventid).foldl (fun entries r => entries.insert r.2 r.1.shorteventid) ∅

def clearRoomTopoIndex (t : Tables) (room : Nat) : Tables :=
  { t with
    roomidTopologicalorderPducount := t.roomidTopologicalorderPducount.retain fun key _ => key.shortroomid ≠ room }

/-- `replace_stream_and_topo_pducount_batch`, at a count that is not negative. -/
def replaceStreamAndTopo (t : Tables) (r : Replaced) : Tables :=
  { t with
    roomPducountEventid := t.roomPducountEventid.insert r.pduId r.eventId
    eventidPduid := t.eventidPduid.insert r.eventId r.pduId
    eventidMetadata := t.eventidMetadata.adjust r.eventId fun m =>
      { m with deprecatedLocalTopoDepth := r.depth, pduCount := some r.pduId.shorteventid.natAbs }
    roomidTopologicalorderPducount :=
      t.roomidTopologicalorderPducount.insert (topoPducountKey r.pduId r.depth) r.eventId }

def replacements (t : Tables) (room : Nat) (sorted : List EventId) : List Replaced :=
  (sorted.zip (availableCounts ((t.collectReorderEntries room).entries.map (·.2)))).zipIdx.map fun e =>
    ⟨e.1.1, ⟨room, e.1.2⟩, e.2 + 1⟩

def maxForceReindexEvents : Nat := 25000

/-- The room without its positions. -/
def removeEntries (t : Tables) (room : Nat) : Tables :=
  (t.collectReorderEntries room).entries.foldl (fun t' e => t'.removeStreamAndTopo ⟨room, e.2⟩ e.1
    ((t.eventidMetadata.lookup e.1).map (·.deprecatedLocalTopoDepth))) (t.clearRoomTopoIndex room)

/-- `reorder_timeline` with `force_reindex`. -/
def reorderTimeline (t : Tables) (room : Nat) (sorted : List EventId) : Tables :=
  if (t.collectReorderEntries room).entries = [] ∨ maxForceReindexEvents < sorted.length then t
  else (t.replacements room sorted).foldl replaceStreamAndTopo (t.removeEntries room)

end Tables

/-! ## Runs -/

inductive TimelineAction where
  /-- `append_pdu` and `prepend_backfill_pdu`. -/
  | insert (x : Insert)
  | addPduOutlier (id : EventId) (shortroomid : Nat) (json : Object) (decoded : Option Pdu)
  /-- An event of `reindex_timeline_events`. -/
  | reindexTopo (id : EventId) (newTopoDepth : Nat)
  /-- `replace_pdu` at the position of the event. -/
  | replacePdu (id : EventId) (json : Object) (decoded : Option Pdu)
  /-- `reorder_timeline` with `force_reindex`, and the order its sort came to. -/
  | reorderTimeline (room : Nat) (sorted : List EventId)
  | removeFromTimeline (id : EventId)
  | removeTimelinePointers (id : EventId)

namespace Tables

def step : TimelineAction → Tables → Option Tables
  | .insert x, t => some (t.insert x)
  | .addPduOutlier id shortroomid json decoded, t => some (t.addPduOutlier id shortroomid json decoded)
  | .reindexTopo id newTopoDepth, t =>
    some (if t.nonOutlierPduExists id then
      match t.getPduId id with
      | some p => t.reindexTopo p id newTopoDepth
      | none => t
    else t)
  | .replacePdu id json decoded, t => (t.getPduId id).bind fun p => t.replacePdu p json id decoded
  | .reorderTimeline room sorted, t =>
    -- the sort gives every entry once
    if sorted.Perm (t.collectReorderEntries room).keys then some (t.reorderTimeline room sorted) else none
  | .removeFromTimeline id, t => some (t.removeFromTimeline id)
  | .removeTimelinePointers id, t => some (t.removeTimelinePointers id)

def FreePositions : TimelineAction → Tables → Prop
  | .insert x, t => t.roomPducountEventid.lookup x.pduId = none ∧ (x.backfill = false → 0 < x.pduId.shorteventid)
  | _, _ => True

instance : ∀ (a : TimelineAction) (t : Tables), Decidable (FreePositions a t)
  | .insert x, t => inferInstanceAs (Decidable (t.roomPducountEventid.lookup x.pduId = none ∧ _))
  | .addPduOutlier .., _ | .reindexTopo .., _ | .replacePdu .., _ | .reorderTimeline .., _
  | .removeFromTimeline _, _ | .removeTimelinePointers _, _ => .isTrue trivial

end Tables

/-! ## New counts -/

theorem length_fillCounts (n : Nat) (l : List Nat) : (fillCounts n l).length = n + l.length := by
  induction n generalizing l with
  | zero => rw [fillCounts, Nat.zero_add]
  | succ n ih =>
    rw [fillCounts, ih, List.length_append, List.length_singleton]
    omega

theorem fillCounts_increasing (n : Nat) {l : List Nat} (h : l.Pairwise (· < ·)) : (fillCounts n l).Pairwise
    (· < ·) := by
  induction n generalizing l with
  | zero => exact h
  | succ n ih =>
    refine ih (List.pairwise_append.mpr ⟨h, List.pairwise_singleton _ _, fun a ha b hb => ?_⟩)
    rw [List.mem_singleton.mp hb]
    -- nothing is above the last
    obtain ⟨init, last, hl⟩ := (List.eq_nil_or_concat l).resolve_left (List.ne_nil_of_mem ha)
    rw [List.concat_eq_append] at hl
    subst hl
    rw [List.getLast?_concat, Option.map_some, Option.getD_some]
    rcases List.mem_append.mp ha with ha | ha
    · have hlt := (List.pairwise_append.mp h).2.2 a ha last (List.mem_singleton_self last)
      omega
    · rw [List.mem_singleton.mp ha]
      omega

theorem dedup_increasing (l : List Nat) : (l.insertionSort (· ≤ ·)).dedup.Pairwise (· < ·) := by
  have hle := (List.pairwise_insertionSort (· ≤ ·) l).sublist (List.dedup_sublist _)
  have hne := List.nodup_dedup (l.insertionSort (· ≤ ·))
  exact hle.imp₂ (fun _ _ hle hne => Nat.lt_of_le_of_ne hle hne) hne

theorem availableCounts_increasing (counts : List Int) : (availableCounts counts).Pairwise (· < ·) :=
  fillCounts_increasing _ (dedup_increasing _)

theorem availableCounts_nodup (counts : List Int) : (availableCounts counts).Nodup :=
  (availableCounts_increasing counts).imp fun hlt => Nat.ne_of_lt hlt

theorem length_availableCounts (counts : List Int) : (availableCounts counts).length = counts.length := by
  have hle := (List.dedup_sublist ((counts.map Int.natAbs).insertionSort (· ≤ ·))).length_le
  rw [List.length_insertionSort, List.length_map] at hle
  unfold availableCounts
  rw [length_fillCounts]
  omega

/-! ## What a reordering writes -/

theorem foldl_unchanged {A B C : Type} (f : A → C) {g : A → B → A} (h : ∀ a b, f (g a b) = f a)
    (a : A) (l : List B) :
    f (l.foldl g a) = f a := by
  induction l generalizing a with
  | nil => rfl
  | cons b l ih => exact (ih (g a b)).trans (h a b)

section
variable {t : Tables} {room : Nat} {sorted : List EventId}

theorem lookup_collectReorderEntries (h : Positions t) (id : EventId) (count : Int) :
    (t.collectReorderEntries room).lookup id = some count ↔ t.roomPducountEventid.lookup
      ⟨room, count⟩ = some id := by
  let rows := (t.roomPducountEventid.entries.filter fun r => r.1.shortroomid = room).insertionSort
    fun r r' => r.1.shorteventid ≤ r'.1.shorteventid
  have hrows : ∀ r, r ∈ rows ↔ t.roomPducountEventid.lookup r.1 = some r.2 ∧ r.1.shortroomid = room := by
    intro r
    rw [List.mem_insertionSort, List.mem_filter, decide_eq_true_eq]
    exact and_congr_left' AList.mem_entries_iff
  have hnodup : (rows.map (·.2)).Nodup := by
    have hentries : t.roomPducountEventid.entries.Nodup :=
      (List.nodupKeys_iff_pairwise.mp t.roomPducountEventid.nodupKeys).imp fun hne heq => hne (congrArg _ heq)
    refine List.Nodup.map_on (fun r hr r' hr' heq => ?_)
      ((List.perm_insertionSort _ _).nodup_iff.mpr (hentries.filter _))
    -- one event has one row
    have hr := (h.inverse _ _).mp ((hrows r).mp hr).1
    have hr' := (h.inverse _ _).mp ((hrows r').mp hr').1
    rw [heq, hr'] at hr
    exact Sigma.ext (Option.some.inj hr).symm (heq_of_eq heq)
  change (rows.foldl (fun (entries : AList fun _ : EventId => Int) r => entries.insert r.2 r.1.shorteventid)
    ∅).lookup id =
    some count ↔ _
  constructor
  · intro hlookup
    by_cases hid : ∃ r ∈ rows, r.2 = id
    · obtain ⟨r, hr, rfl⟩ := hid
      rw [AList.lookup_foldl_insert hnodup hr, Option.some.injEq] at hlookup
      obtain ⟨hrow, hroom⟩ := (hrows r).mp hr
      rw [← hrow, ← hroom, ← hlookup]
    · rw [AList.lookup_foldl_insert_of_ne fun r hr heq => hid ⟨r, hr, heq⟩, AList.lookup_empty] at hlookup
      cases hlookup
  · intro hrow
    exact AList.lookup_foldl_insert hnodup ((hrows ⟨⟨room, count⟩, id⟩).mpr ⟨hrow, rfl⟩)

theorem mem_keys_collectReorderEntries (h : Positions t) (id : EventId) :
    id ∈ (t.collectReorderEntries room).keys ↔ ∃ count, t.eventidPduid.lookup id = some ⟨room, count⟩ := by
  rw [← AList.mem_keys, ← AList.lookup_isSome, Option.isSome_iff_exists]
  exact exists_congr fun count => (lookup_collectReorderEntries h id count).trans (h.inverse _ _)

theorem mem_entries_position (h : Positions t) (p : PduId) :
    p ∈ (t.collectReorderEntries room).entries.map (fun e => (⟨room, e.2⟩ : PduId)) ↔
      p.shortroomid = room ∧ t.roomPducountEventid.lookup p ≠ none := by
  rw [List.mem_map]
  constructor
  · rintro ⟨⟨id, count⟩, he, rfl⟩
    have hrow := (lookup_collectReorderEntries h id count).mp (AList.mem_entries_iff.mp he)
    exact ⟨rfl, by rw [hrow]; exact nofun⟩
  · rintro ⟨rfl, hrow⟩
    obtain ⟨id, hid⟩ := Option.ne_none_iff_exists'.mp hrow
    exact ⟨⟨id, p.shorteventid⟩, AList.mem_entries_iff.mpr ((lookup_collectReorderEntries h id _).mpr hid), rfl⟩

theorem length_sorted (hsorted : sorted.Perm (t.collectReorderEntries room).keys) :
    sorted.length = (availableCounts ((t.collectReorderEntries room).entries.map (·.2))).length := by
  rw [length_availableCounts, List.length_map, hsorted.length_eq, AList.keys, List.keys, List.length_map]

theorem map_eventId_replacements (hsorted : sorted.Perm (t.collectReorderEntries room).keys) :
    (t.replacements room sorted).map (·.eventId) = sorted := by
  unfold Tables.replacements
  rw [List.map_map]
  have hmap : (sorted.zip (availableCounts ((t.collectReorderEntries room).entries.map (·.2)))).zipIdx.map
      (fun e => e.1.1) = sorted := by
    have hcomp := List.map_map (f := Prod.fst) (g := Prod.fst)
      (l := (sorted.zip (availableCounts ((t.collectReorderEntries room).entries.map (·.2)))).zipIdx)
    rw [List.zipIdx_map_fst, List.map_fst_zip (Nat.le_of_eq (length_sorted hsorted))] at hcomp
    exact hcomp.symm
  exact hmap

theorem nodup_pduId_replacements (hsorted : sorted.Perm (t.collectReorderEntries room).keys) :
    ((t.replacements room sorted).map (·.pduId)).Nodup := by
  have hmap : (t.replacements room sorted).map (·.pduId) =
      (availableCounts ((t.collectReorderEntries room).entries.map (·.2))).map fun n : Nat =>
        (⟨room, (n : Int)⟩ : PduId) := by
    have hsnd : (sorted.zip (availableCounts ((t.collectReorderEntries room).entries.map (·.2)))).map
        Prod.snd = _ :=
      List.map_snd_zip (Nat.le_of_eq (length_sorted hsorted).symm)
    have hzip := List.zipIdx_map_fst 0
      (sorted.zip (availableCounts ((t.collectReorderEntries room).entries.map (·.2))))
    unfold Tables.replacements
    conv_rhs => rw [← hsnd, ← hzip]
    simp only [List.map_map]
    rfl
  rw [hmap]
  refine (availableCounts_nodup _).map fun n m h => ?_
  have hcount := congrArg PduId.shorteventid h
  simp only [Int.natCast_inj] at hcount
  exact hcount

theorem mem_replacements {r : Replaced} (h : r ∈ t.replacements room sorted) :
    r.pduId.shortroomid = room ∧ 0 ≤ r.pduId.shorteventid := by
  unfold Tables.replacements at h
  obtain ⟨e, -, rfl⟩ := List.mem_map.mp h
  exact ⟨rfl, Int.natCast_nonneg _⟩

theorem lookup_removeStreamAndTopo (p : PduId) (id : EventId) (depth : Option Nat) (key : TopoKey) :
    (t.removeStreamAndTopo p id depth).roomidTopologicalorderPducount.lookup key =
      if depth.map (topoPducountKey p) = some key then none else t.roomidTopologicalorderPducount.lookup key := by
  cases depth with
  | none => simp [Tables.removeStreamAndTopo]
  | some depth =>
    simp only [Tables.removeStreamAndTopo, Option.map_some, Option.some.injEq]
    rw [AList.lookup_erase_eq]
    exact if_congr eq_comm rfl rfl

/-- The tables of a room whose positions are taken away. -/
structure Removed (t t' : Tables) (room : Nat) : Prop where
  stream : ∀ p, t'.roomPducountEventid.lookup p =
    if p.shortroomid = room then none else t.roomPducountEventid.lookup p
  pduid : ∀ id, id ∉ (t.collectReorderEntries room).keys → t'.eventidPduid.lookup id = t.eventidPduid.lookup id
  topo : ∀ key, t'.roomidTopologicalorderPducount.lookup key =
    if key.shortroomid = room then none else t.roomidTopologicalorderPducount.lookup key
  metadata : t'.eventidMetadata = t.eventidMetadata
  pdus : t'.eventidPdu = t.eventidPdu
  timestamps : t'.roomidTimestampPducount = t.roomidTimestampPducount

theorem lookup_clearRoomTopoIndex (key : TopoKey) :
    (t.clearRoomTopoIndex room).roomidTopologicalorderPducount.lookup key =
      if key.shortroomid = room then none else t.roomidTopologicalorderPducount.lookup key := by
  unfold Tables.clearRoomTopoIndex
  rw [AList.lookup_retain]
  by_cases hkey : key.shortroomid = room <;>
    cases t.roomidTopologicalorderPducount.lookup key <;> simp [hkey, Option.filter]

theorem lookup_removeEntries (key : TopoKey) :
    (t.removeEntries room).roomidTopologicalorderPducount.lookup key =
      if key.shortroomid = room then none else t.roomidTopologicalorderPducount.lookup key := by
  have hfold : ∀ (l : List (Σ _ : EventId, Int)) (t' : Tables),
      t'.roomidTopologicalorderPducount.lookup key =
        (if key.shortroomid = room then none else t.roomidTopologicalorderPducount.lookup key) →
      (l.foldl (fun t' e => t'.removeStreamAndTopo ⟨room, e.2⟩ e.1
          ((t.eventidMetadata.lookup e.1).map (·.deprecatedLocalTopoDepth)))
            t').roomidTopologicalorderPducount.lookup
        key = if key.shortroomid = room then none else t.roomidTopologicalorderPducount.lookup key := by
    intro l
    induction l with
    | nil => exact fun t' ht' => ht'
    | cons e l ih =>
      intro t' ht'
      refine ih _ ?_
      rw [lookup_removeStreamAndTopo]
      split
      · -- the key is one of the room
        rename_i hkey
        obtain ⟨depth, -, heq⟩ := Option.map_eq_some_iff.mp hkey
        have hroom : key.shortroomid = room := by
          rw [← heq]
          rfl
        rw [if_pos hroom]
      · exact ht'
  exact hfold _ _ (lookup_clearRoomTopoIndex key)

theorem removeEntries_removed (h : Positions t) : Removed t (t.removeEntries room) room where
  stream p := by
    have hfold : (t.removeEntries room).roomPducountEventid =
        (t.collectReorderEntries room).entries.foldl (fun m e => m.erase ⟨room, e.2⟩)
          (t.clearRoomTopoIndex room).roomPducountEventid :=
      (List.foldl_hom Tables.roomPducountEventid fun _ _ => rfl).symm
    rw [hfold, AList.lookup_foldl_erase]
    by_cases hp : p.shortroomid = room
    · rw [if_pos hp]
      split
      · rfl
      · rename_i hrow
        rw [mem_entries_position h, not_and, not_not] at hrow
        exact hrow hp
    · rw [if_neg hp, if_neg fun hmem => hp ((mem_entries_position h p).mp hmem).1]
      rfl
  pduid id hid := by
    have hfold : (t.removeEntries room).eventidPduid =
        (t.collectReorderEntries room).entries.foldl (fun m e => m.erase e.1)
          (t.clearRoomTopoIndex room).eventidPduid :=
      (List.foldl_hom Tables.eventidPduid fun _ _ => rfl).symm
    rw [hfold, AList.lookup_foldl_erase]
    exact if_neg hid
  topo := lookup_removeEntries
  metadata := by
    unfold Tables.removeEntries
    refine foldl_unchanged Tables.eventidMetadata (fun _ _ => ?_) _ _
    rfl
  pdus := by
    unfold Tables.removeEntries
    refine foldl_unchanged Tables.eventidPdu (fun _ _ => ?_) _ _
    rfl
  timestamps := by
    unfold Tables.removeEntries
    refine foldl_unchanged Tables.roomidTimestampPducount (fun _ _ => ?_) _ _
    rfl

def Replaced.metadata (r : Replaced) (m : EventMetadata) : EventMetadata :=
  { m with deprecatedLocalTopoDepth := r.depth, pduCount := some r.pduId.shorteventid.natAbs }

/-- The tables after the room was cleared and its events were replaced. -/
structure Rewritten (t t' : Tables) (room : Nat) (l : List Replaced) : Prop where
  stream : ∀ r ∈ l, t'.roomPducountEventid.lookup r.pduId = some r.eventId
  streamElse : ∀ p, (∀ r ∈ l, r.pduId ≠ p) →
    t'.roomPducountEventid.lookup p = if p.shortroomid = room then none else t.roomPducountEventid.lookup p
  pduid : ∀ r ∈ l, t'.eventidPduid.lookup r.eventId = some r.pduId
  pduidElse : ∀ id, (∀ r ∈ l, r.eventId ≠ id) → t'.eventidPduid.lookup id = t.eventidPduid.lookup id
  metadata : ∀ r ∈ l, t'.eventidMetadata.lookup r.eventId = (t.eventidMetadata.lookup r.eventId).map r.metadata
  metadataElse : ∀ id, (∀ r ∈ l, r.eventId ≠ id) → t'.eventidMetadata.lookup id = t.eventidMetadata.lookup id
  topo : ∀ r ∈ l, t'.roomidTopologicalorderPducount.lookup (topoPducountKey r.pduId r.depth) = some r.eventId
  topoElse : ∀ key, (∀ r ∈ l, topoPducountKey r.pduId r.depth ≠ key) →
    t'.roomidTopologicalorderPducount.lookup key =
      if key.shortroomid = room then none else t.roomidTopologicalorderPducount.lookup key
  pdus : t'.eventidPdu = t.eventidPdu
  timestamps : t'.roomidTimestampPducount = t.roomidTimestampPducount

theorem reorderTimeline_rewritten (h : Positions t) (hsorted : sorted.Perm (t.collectReorderEntries room).keys) :
    t.reorderTimeline room sorted = t ∨
      Rewritten t (t.reorderTimeline room sorted) room (t.replacements room sorted) := by
  unfold Tables.reorderTimeline
  by_cases hskip : (t.collectReorderEntries room).entries = [] ∨ Tables.maxForceReindexEvents < sorted.length
  · exact .inl (if_pos hskip)
  rw [if_neg hskip]
  refine .inr ?_
  have hremoved : Removed t (t.removeEntries room) room := removeEntries_removed h
  have hids : ((t.replacements room sorted).map (·.eventId)).Nodup := by
    rw [map_eventId_replacements hsorted]
    exact hsorted.nodup_iff.mpr (t.collectReorderEntries room).keys_nodup
  have hpositions := nodup_pduId_replacements hsorted
  have hkeys : ((t.replacements room sorted).map fun r => topoPducountKey r.pduId r.depth).Nodup := by
    refine List.Nodup.of_map topoKeyToPduId ?_
    rw [List.map_map]
    exact hpositions
  -- the four tables that the replacements write
  have hstream : (t.replacements room sorted).foldl (fun m r => m.insert r.pduId r.eventId)
    (t.removeEntries room).roomPducountEventid =
      ((t.replacements room sorted).foldl Tables.replaceStreamAndTopo (t.removeEntries room)).roomPducountEventid :=
    List.foldl_hom Tables.roomPducountEventid fun _ _ => rfl
  have hpduid : (t.replacements room sorted).foldl (fun m r => m.insert r.eventId r.pduId)
    (t.removeEntries room).eventidPduid =
      ((t.replacements room sorted).foldl Tables.replaceStreamAndTopo (t.removeEntries room)).eventidPduid :=
    List.foldl_hom Tables.eventidPduid fun _ _ => rfl
  have hmetadata : (t.replacements room sorted).foldl (fun m r => m.adjust r.eventId r.metadata)
    (t.removeEntries room).eventidMetadata =
      ((t.replacements room sorted).foldl Tables.replaceStreamAndTopo (t.removeEntries room)).eventidMetadata :=
    List.foldl_hom Tables.eventidMetadata fun _ _ => rfl
  have htopo : (t.replacements room sorted).foldl (fun m r => m.insert (topoPducountKey r.pduId r.depth) r.eventId)
      (t.removeEntries room).roomidTopologicalorderPducount =
        ((t.replacements room sorted).foldl Tables.replaceStreamAndTopo
          (t.removeEntries room)).roomidTopologicalorderPducount :=
    List.foldl_hom Tables.roomidTopologicalorderPducount fun _ _ => rfl
  refine ⟨fun r hr => ?_, fun p hp => ?_, fun r hr => ?_, fun id hid => ?_, fun r hr => ?_, fun id hid => ?_,
    fun r hr => ?_, fun key hkey => ?_, ?_, ?_⟩
  · rw [← hstream]
    exact AList.lookup_foldl_insert hpositions hr
  · rw [← hstream, AList.lookup_foldl_insert_of_ne hp]
    exact hremoved.stream p
  · rw [← hpduid]
    exact AList.lookup_foldl_insert hids hr
  · rw [← hpduid, AList.lookup_foldl_insert_of_ne hid]
    refine hremoved.pduid id fun hmem => ?_
    rw [← hsorted.mem_iff, ← map_eventId_replacements hsorted] at hmem
    obtain ⟨r, hr, heq⟩ := List.mem_map.mp hmem
    exact hid r hr heq
  · rw [← hmetadata, AList.lookup_foldl_adjust hids hr, hremoved.metadata]
  · rw [← hmetadata, AList.lookup_foldl_adjust_of_ne hid, hremoved.metadata]
  · rw [← htopo]
    exact AList.lookup_foldl_insert hkeys hr
  · rw [← htopo, AList.lookup_foldl_insert_of_ne hkey]
    exact hremoved.topo key
  · rw [foldl_unchanged Tables.eventidPdu (g := Tables.replaceStreamAndTopo) fun _ _ => rfl]
    exact hremoved.pdus
  · rw [foldl_unchanged Tables.roomidTimestampPducount (g := Tables.replaceStreamAndTopo) fun _ _ => rfl]
    exact hremoved.timestamps

end

end Congruent.TimelineData
