import Congruent.TimelineOps
import Mathlib.Algebra.Order.Ring.Nat

/-!
# A reordering in batches (`reorder_timeline` without `force_reindex`)

The first batch deletes every topological row of the room, and each event then queues its new
row. A batch that has grown to the limit is committed, and the rows of the events after it
come with later ones.
-/

namespace Congruent.TimelineData

def reorderBatchOps : Nat := 25000

/-- A write that is queued in a batch. -/
inductive DbOp where
  | removeTopo (key : TopoKey)
  | insertTopo (key : TopoKey) (id : EventId)
  | insertMetadata (id : EventId) (m : EventMetadata)

namespace Tables

def applyOp (t : Tables) : DbOp → Tables
  | .removeTopo key => { t with roomidTopologicalorderPducount := t.roomidTopologicalorderPducount.erase key }
  | .insertTopo key id =>
    { t with roomidTopologicalorderPducount := t.roomidTopologicalorderPducount.insert key id }
  | .insertMetadata id m => { t with eventidMetadata := t.eventidMetadata.insert id m }

/-- `db_apply_batch`. -/
def commit (t : Tables) (batch : List DbOp) : Tables := batch.foldl applyOp t

/-- `clear_room_topo_index_into_batch`. -/
def clearRoomTopoOps (t : Tables) (room : Nat) : List DbOp :=
  (t.roomidTopologicalorderPducount.entries.filter fun r => r.1.shortroomid = room).map fun r => .removeTopo r.1

/-- `reindex_topo_batch`, and with the metadata it was given
`reindex_topo_with_cached_metadata_batch`. -/
def reindexTopoOps (found : Option EventMetadata) (p : PduId) (id : EventId) (newTopoDepth : Nat) : List DbOp :=
  match found with
  | some m =>
    [.removeTopo (topoPducountKey p m.deprecatedLocalTopoDepth), .insertTopo (topoPducountKey p newTopoDepth) id,
      .insertMetadata id { m with deprecatedLocalTopoDepth := newTopoDepth }]
  | none => [.insertTopo (topoPducountKey p newTopoDepth) id]

end Tables

structure Reordering where
  tables : Tables
  batch : List DbOp
  commits : List Tables

namespace Reordering

def apply (s : Reordering) : Reordering :=
  ⟨s.tables.commit s.batch, [], s.commits ++ [s.tables.commit s.batch]⟩

def event (t : Tables) (room : Nat) (s : Reordering) (e : EventId × Nat) : Reordering :=
  let p : PduId := ⟨room, ((t.collectReorderEntries room).lookup e.1).getD 0⟩
  let found := (t.eventidMetadata.lookup e.1).or (s.tables.eventidMetadata.lookup e.1)
  let s := { s with batch := s.batch ++ Tables.reindexTopoOps found p e.1 (e.2 + 1) }
  if reorderBatchOps ≤ s.batch.length then s.apply else s

end Reordering

/-- `reorder_timeline` without `force_reindex`, from the sort on. -/
def Tables.reorderInBatches (t : Tables) (room : Nat) (sorted : List EventId) : Reordering :=
  if (t.collectReorderEntries room).entries = [] then ⟨t, [], []⟩
  else
    let s := sorted.zipIdx.foldl (Reordering.event t room) ⟨t, t.clearRoomTopoOps room, []⟩
    if s.batch = [] then s else s.apply

/-! ## What is listed -/

def Tables.Listed (t : Tables) (room : Nat) (id : EventId) : Prop :=
  ∃ key, key.shortroomid = room ∧ t.roomidTopologicalorderPducount.lookup key = some id ∧
    t.roomPducountEventid.lookup (topoKeyToPduId key) = some id

def Tables.AllListed (t : Tables) (room : Nat) : Prop :=
  ∀ p id, t.roomPducountEventid.lookup p = some id → p.shortroomid = room → t.Listed room id

/-- The operations that an event queues. -/
def Tables.reindexCount (t : Tables) (id : EventId) : Nat := if (t.eventidMetadata.lookup id).isSome then 3 else 1

def Tables.OneBatch (t : Tables) (room : Nat) (sorted : List EventId) : Prop :=
  sorted.dropLast = [] ∨
    (t.roomidTopologicalorderPducount.entries.filter fun r => r.1.shortroomid = room).length +
      (sorted.dropLast.map t.reindexCount).sum < reorderBatchOps

/-! ## One batch -/

section
variable {t t' : Tables} {room : Nat} {id : EventId} {key : TopoKey}

theorem commit_append (t : Tables) (a b : List DbOp) : t.commit (a ++ b) = (t.commit a).commit b :=
  List.foldl_append

theorem commit_stream (t : Tables) (batch : List DbOp) :
    (t.commit batch).roomPducountEventid = t.roomPducountEventid :=
  foldl_unchanged (·.roomPducountEventid) (fun t op => by cases op <;> rfl) t batch

def Tables.Absent (t : Tables) (room : Nat) (id : EventId) : Prop :=
  ∀ key, key.shortroomid = room → t.roomidTopologicalorderPducount.lookup key ≠ some id

theorem applyOp_absent (h : t.Absent room id) {op : DbOp} (hop : ∀ key id', op = .insertTopo key id' → id' ≠ id) :
    (t.applyOp op).Absent room id := by
  intro key hkey
  cases op with
  | removeTopo key' =>
    show (t.roomidTopologicalorderPducount.erase key').lookup key ≠ some id
    rw [AList.lookup_erase_eq]
    split
    · exact nofun
    · exact h key hkey
  | insertTopo key' id' =>
    show (t.roomidTopologicalorderPducount.insert key' id').lookup key ≠ some id
    rw [AList.lookup_insert_ite]
    split
    · exact fun heq => hop key' id' rfl (Option.some.inj heq)
    · exact h key hkey
  | insertMetadata id' m => exact h key hkey

theorem commit_absent : ∀ (batch : List DbOp) {t : Tables}, t.Absent room id →
    (∀ key id', .insertTopo key id' ∈ batch → id' ≠ id) → (t.commit batch).Absent room id
  | [], _, h, _ => h
  | op :: batch, t, h, hbatch => by
    refine commit_absent batch (applyOp_absent h fun key id' hop => ?_) fun key id' hmem => ?_
    · exact hbatch key id' (hop ▸ List.mem_cons_self)
    · exact hbatch key id' (List.mem_cons_of_mem _ hmem)

theorem lookup_cleared (t : Tables) (hkey : key.shortroomid = room) :
    (t.commit (t.clearRoomTopoOps room)).roomidTopologicalorderPducount.lookup key = none := by
  have hgo : ∀ (rows : List (Σ _ : TopoKey, EventId)) (t : Tables),
      (t.commit (rows.map fun r => .removeTopo r.1)).roomidTopologicalorderPducount =
        rows.foldl (fun m r => m.erase r.1) t.roomidTopologicalorderPducount := by
    intro rows
    induction rows with
    | nil => exact fun t => rfl
    | cons r rows ih => exact fun t => ih _
  unfold Tables.clearRoomTopoOps
  rw [hgo, AList.lookup_foldl_erase]
  split
  · rfl
  · rename_i hmem
    cases hl : t.roomidTopologicalorderPducount.lookup key with
    | none => rfl
    | some id =>
      have hrow := AList.mem_entries_iff.mpr hl
      exact absurd (List.mem_map.mpr ⟨_, List.mem_filter.mpr ⟨hrow, by simpa using hkey⟩, rfl⟩) hmem

theorem cleared_absent (t : Tables) (room : Nat) (id : EventId) :
    (t.commit (t.clearRoomTopoOps room)).Absent room id := by
  intro key hkey
  rw [lookup_cleared t hkey]
  exact nofun

theorem lookup_reindexTopoOps (t : Tables) (found : Option EventMetadata) (p : PduId) (id : EventId) (depth : Nat)
    (hkey : topoKeyToPduId key ≠ p) :
    (t.commit (Tables.reindexTopoOps found p id depth)).roomidTopologicalorderPducount.lookup key =
      t.roomidTopologicalorderPducount.lookup key := by
  have hne : ∀ depth, key ≠ topoPducountKey p depth := by
    rintro depth rfl
    exact hkey rfl
  cases found with
  | none => exact AList.lookup_insert_ne (hne depth)
  | some m =>
    exact (AList.lookup_insert_ne (hne depth)).trans (AList.lookup_erase_ne (hne m.deprecatedLocalTopoDepth))

theorem lookup_reindexTopoOps_self (t : Tables) (found : Option EventMetadata) (p : PduId) (id : EventId)
    (depth : Nat) :
    (t.commit (Tables.reindexTopoOps found p id depth)).roomidTopologicalorderPducount.lookup
      (topoPducountKey p depth) = some id := by
  cases found with
  | none => exact AList.lookup_insert _
  | some m => exact AList.lookup_insert _

end

/-! ## The events of the room -/

section
variable {t : Tables} {room : Nat} {id : EventId}

theorem mem_entries_rows (t : Tables) (room : Nat) (r : Σ _ : PduId, EventId) :
    r ∈ (t.roomPducountEventid.entries.filter fun r => r.1.shortroomid = room).insertionSort
        (fun r r' => r.1.shorteventid ≤ r'.1.shorteventid) ↔
      t.roomPducountEventid.lookup r.1 = some r.2 ∧ r.1.shortroomid = room := by
  rw [List.mem_insertionSort, List.mem_filter, decide_eq_true_eq]
  exact and_congr_left' AList.mem_entries_iff

theorem row_of_entry {count : Int} (h : (t.collectReorderEntries room).lookup id = some count) :
    t.roomPducountEventid.lookup ⟨room, count⟩ = some id := by
  rcases AList.row_of_lookup_foldl_insert _ h with ⟨r, hr, rfl, rfl⟩ | hnone
  · obtain ⟨hrow, rfl⟩ := (mem_entries_rows t room r).mp hr
    exact hrow
  · rw [AList.lookup_empty] at hnone
    cases hnone

theorem mem_entries_of_row {p : PduId} (h : t.roomPducountEventid.lookup p = some id) (hp : p.shortroomid = room) :
    id ∈ (t.collectReorderEntries room).keys := by
  refine AList.mem_keys.mp ((AList.mem_foldl_insert _).mpr (.inl ?_))
  exact List.mem_map.mpr ⟨⟨p, id⟩, (mem_entries_rows t room ⟨p, id⟩).mpr ⟨h, hp⟩, rfl⟩

def Tables.position (t : Tables) (room : Nat) (id : EventId) : PduId :=
  ⟨room, ((t.collectReorderEntries room).lookup id).getD 0⟩

theorem lookup_position (h : id ∈ (t.collectReorderEntries room).keys) :
    t.roomPducountEventid.lookup (t.position room id) = some id := by
  obtain ⟨count, hcount⟩ := Option.isSome_iff_exists.mp (AList.lookup_isSome.mpr (AList.mem_keys.mpr h))
  unfold Tables.position
  rw [hcount]
  exact row_of_entry hcount

def Tables.eventOps (t : Tables) (room : Nat) (e : EventId × Nat) : List DbOp :=
  Tables.reindexTopoOps (t.eventidMetadata.lookup e.1) (t.position room e.1) e.1 (e.2 + 1)

theorem length_eventOps (t : Tables) (room : Nat) (e : EventId × Nat) :
    (t.eventOps room e).length = t.reindexCount e.1 := by
  unfold Tables.eventOps Tables.reindexTopoOps Tables.reindexCount
  cases t.eventidMetadata.lookup e.1 <;> rfl

theorem insert_eventOps {e : EventId × Nat} {key : TopoKey} (h : .insertTopo key id ∈ t.eventOps room e) :
    id = e.1 := by
  unfold Tables.eventOps Tables.reindexTopoOps at h
  cases hm : t.eventidMetadata.lookup e.1 with
  | none =>
    rw [hm, List.mem_singleton] at h
    exact (DbOp.insertTopo.inj h).2
  | some m =>
    simp only [hm, List.mem_cons, reduceCtorEq, List.not_mem_nil, or_false, false_or] at h
    exact (DbOp.insertTopo.inj h).2

variable {key : TopoKey}

theorem lookup_events_ne : ∀ (l : List (EventId × Nat)) (t' : Tables),
    (∀ e ∈ l, topoKeyToPduId key ≠ t.position room e.1) →
    (t'.commit (l.flatMap (t.eventOps room))).roomidTopologicalorderPducount.lookup key =
      t'.roomidTopologicalorderPducount.lookup key
  | [], _, _ => rfl
  | e :: l, t', h => by
    rw [List.flatMap_cons, commit_append, lookup_events_ne l _ fun e' he' => h e' (List.mem_cons_of_mem _ he')]
    exact lookup_reindexTopoOps t' _ _ _ _ (h e List.mem_cons_self)

theorem lookup_events : ∀ (l : List (EventId × Nat)) (t' : Tables), (l.map fun e => t.position room e.1).Nodup →
    ∀ e ∈ l, (t'.commit (l.flatMap (t.eventOps room))).roomidTopologicalorderPducount.lookup
      (topoPducountKey (t.position room e.1) (e.2 + 1)) = some e.1
  | a :: l, t', hn, e, he => by
    obtain ⟨ha, hn⟩ := List.nodup_cons.mp hn
    rw [List.flatMap_cons, commit_append]
    rcases List.mem_cons.mp he with rfl | he
    · rw [lookup_events_ne l _ fun e' he' heq => ha (List.mem_map.mpr ⟨e', he', heq.symm⟩)]
      exact lookup_reindexTopoOps_self t' _ _ _ _
    · exact lookup_events l _ hn e he

/-! ## The commits -/

theorem event_uncommitted (t : Tables) (room : Nat) (batch : List DbOp) (e : EventId × Nat) :
    Reordering.event t room ⟨t, batch, []⟩ e =
      if reorderBatchOps ≤ (batch ++ t.eventOps room e).length then
        (⟨t, batch ++ t.eventOps room e, []⟩ : Reordering).apply
      else ⟨t, batch ++ t.eventOps room e, []⟩ := by
  unfold Reordering.event Tables.eventOps Tables.position
  simp only [Option.or_self]

theorem event_commits (s : Reordering) (e : EventId × Nat) : s.commits ⊆ (Reordering.event t room s e).commits := by
  unfold Reordering.event
  simp only
  split
  · exact List.subset_append_left _ _
  · exact List.Subset.refl _

theorem run_commits_subset : ∀ (l : List (EventId × Nat)) (s : Reordering),
    s.commits ⊆ (l.foldl (Reordering.event t room) s).commits
  | [], _ => List.Subset.refl _
  | e :: l, s => List.Subset.trans (event_commits s e) (run_commits_subset l _)

theorem run_uncommitted : ∀ (l : List (EventId × Nat)) (batch : List DbOp),
    l = [] ∨ batch.length + (l.map fun e => t.reindexCount e.1).sum < reorderBatchOps →
    l.foldl (Reordering.event t room) ⟨t, batch, []⟩ = ⟨t, batch ++ l.flatMap (t.eventOps room), []⟩
  | [], batch, _ => by simp
  | e :: l, batch, h => by
    have hlt := h.resolve_left (List.cons_ne_nil e l)
    rw [List.map_cons, List.sum_cons] at hlt
    have hlen : (batch ++ t.eventOps room e).length = batch.length + t.reindexCount e.1 := by
      rw [List.length_append, length_eventOps]
    rw [List.foldl_cons, event_uncommitted, if_neg (by omega), run_uncommitted l _ (.inr (by omega)),
      List.flatMap_cons, List.append_assoc]

theorem run_committed (t : Tables) (room : Nat) : ∀ (l : List (EventId × Nat)) (batch : List DbOp), l ≠ [] →
    reorderBatchOps ≤ batch.length + (l.map fun e => t.reindexCount e.1).sum →
    ∃ done, done ⊆ l ∧ t.commit (batch ++ done.flatMap (t.eventOps room)) ∈
      (l.foldl (Reordering.event t room) ⟨t, batch, []⟩).commits
  | e :: l, batch, _, h => by
    have hlen : (batch ++ t.eventOps room e).length = batch.length + t.reindexCount e.1 := by
      rw [List.length_append, length_eventOps]
    rw [List.map_cons, List.sum_cons] at h
    rw [List.foldl_cons, event_uncommitted]
    by_cases hfull : reorderBatchOps ≤ (batch ++ t.eventOps room e).length
    · rw [if_pos hfull]
      refine ⟨[e], by simp, run_commits_subset l _ ?_⟩
      simp [Reordering.apply]
    · rw [if_neg hfull]
      have hne : l ≠ [] := by
        rintro rfl
        rw [List.map_nil, List.sum_nil] at h
        omega
      obtain ⟨done, hdone, hmem⟩ := run_committed t room l (batch ++ t.eventOps room e) hne (by omega)
      refine ⟨e :: done, List.cons_subset_cons e hdone, ?_⟩
      rw [List.flatMap_cons, ← List.append_assoc]
      exact hmem

theorem sum_zipIdx (f : EventId → Nat) (l : List EventId) : (l.zipIdx.map fun e => f e.1).sum = (l.map f).sum := by
  conv_rhs => rw [← List.zipIdx_map_fst 0 l, List.map_map]
  rfl

variable {sorted : List EventId} (hsorted : sorted.Perm (t.collectReorderEntries room).keys)
include hsorted

theorem nodup_positions : (sorted.zipIdx.map fun e => t.position room e.1).Nodup := by
  have hmap : (sorted.zipIdx.map fun e => t.position room e.1) = sorted.map (t.position room) := by
    conv_rhs => rw [← List.zipIdx_map_fst 0 sorted, List.map_map]
    rfl
  rw [hmap]
  refine List.Nodup.map_on (fun id hid id' hid' heq => ?_) (hsorted.nodup_iff.mpr (AList.keys_nodup _))
  -- the row at the position is for one event
  have hrow := lookup_position (hsorted.mem_iff.mp hid)
  rw [heq, lookup_position (hsorted.mem_iff.mp hid')] at hrow
  exact (Option.some.inj hrow).symm

theorem commit_all_listed :
    (t.commit (t.clearRoomTopoOps room ++ sorted.zipIdx.flatMap (t.eventOps room))).AllListed room := by
  intro p id hrow hp
  rw [commit_stream] at hrow
  have hid : id ∈ sorted := hsorted.mem_iff.mpr (mem_entries_of_row hrow hp)
  obtain ⟨i, hi⟩ := List.mem_iff_getElem?.mp hid
  have hmem : (id, i) ∈ sorted.zipIdx := List.mem_zipIdx_iff_getElem?.mpr hi
  refine ⟨topoPducountKey (t.position room id) (i + 1), rfl, ?_, ?_⟩
  · rw [commit_append]
    exact lookup_events sorted.zipIdx _ (nodup_positions hsorted) (id, i) hmem
  · rw [commit_stream]
    exact lookup_position (hsorted.mem_iff.mp hid)

omit hsorted in
theorem commit_hides {done : List (EventId × Nat)} (hid : ∀ e ∈ done, e.1 ≠ id) :
    (t.commit (t.clearRoomTopoOps room ++ done.flatMap (t.eventOps room))).Absent room id := by
  rw [commit_append]
  refine commit_absent _ (cleared_absent t room id) fun key id' hmem => ?_
  obtain ⟨e, he, hop⟩ := List.mem_flatMap.mp hmem
  rw [insert_eventOps hop]
  exact hid e he

theorem entries_ne_nil {init : List EventId} {last : EventId} (hsplit : sorted = init ++ [last]) :
    (t.collectReorderEntries room).entries ≠ [] := by
  intro hnil
  have hkeys : (t.collectReorderEntries room).keys = [] := by rw [AList.keys, hnil]; rfl
  rw [hkeys, hsplit] at hsorted
  exact absurd hsorted.eq_nil (by simp)

theorem commits_of_oneBatch (h : t.OneBatch room sorted) :
    ∀ t' ∈ (t.reorderInBatches room sorted).commits,
      t' = t.commit (t.clearRoomTopoOps room ++ sorted.zipIdx.flatMap (t.eventOps room)) := by
  rcases List.eq_nil_or_concat sorted with rfl | ⟨init, last, hsplit⟩
  · have hnil : (t.collectReorderEntries room).entries = [] := List.map_eq_nil_iff.mp hsorted.symm.eq_nil
    unfold Tables.reorderInBatches
    rw [if_pos hnil]
    exact nofun
  rw [List.concat_eq_append] at hsplit
  have hzip : sorted.zipIdx = init.zipIdx ++ [(last, init.length)] := by
    rw [hsplit, List.zipIdx_append, List.zipIdx_singleton, Nat.zero_add]
  have hfits : init.zipIdx = [] ∨ (t.clearRoomTopoOps room).length +
      (init.zipIdx.map fun e => t.reindexCount e.1).sum < reorderBatchOps := by
    rw [sum_zipIdx, Tables.clearRoomTopoOps, List.length_map]
    unfold Tables.OneBatch at h
    rw [hsplit, List.dropLast_concat] at h
    exact h.imp_left fun hinit => by rw [hinit]; rfl
  have hops : t.clearRoomTopoOps room ++ init.zipIdx.flatMap (t.eventOps room) ++
        t.eventOps room (last, init.length) =
      t.clearRoomTopoOps room ++ sorted.zipIdx.flatMap (t.eventOps room) := by
    rw [hzip, List.flatMap_append, List.flatMap_singleton, List.append_assoc]
  unfold Tables.reorderInBatches
  rw [if_neg (entries_ne_nil hsorted hsplit)]
  simp only
  rw [hzip, List.foldl_append, run_uncommitted _ _ hfits, List.foldl_cons, List.foldl_nil, event_uncommitted, hops,
    ← hzip]
  intro t' ht'
  by_cases hfull : reorderBatchOps ≤ (t.clearRoomTopoOps room ++ sorted.zipIdx.flatMap (t.eventOps room)).length
  · rw [if_pos hfull] at ht'
    simpa [Reordering.apply] using ht'
  · rw [if_neg hfull] at ht'
    split at ht'
    · cases ht'
    · simpa [Reordering.apply] using ht'

theorem hidden_of_full (h : ¬t.OneBatch room sorted) :
    ∃ t' ∈ (t.reorderInBatches room sorted).commits, ¬t'.AllListed room := by
  unfold Tables.OneBatch at h
  rw [not_or, not_lt] at h
  obtain ⟨hinit, hfull⟩ := h
  obtain ⟨init, last, hsplit⟩ := (List.eq_nil_or_concat sorted).resolve_left fun hnil => hinit (by rw [hnil]; rfl)
  rw [List.concat_eq_append] at hsplit
  rw [hsplit, List.dropLast_concat] at hinit hfull
  have hzip : sorted.zipIdx = init.zipIdx ++ [(last, init.length)] := by
    rw [hsplit, List.zipIdx_append, List.zipIdx_singleton, Nat.zero_add]
  obtain ⟨done, hdone, hcommit⟩ := run_committed t room init.zipIdx (t.clearRoomTopoOps room)
    (by simpa using hinit) (by rwa [sum_zipIdx, Tables.clearRoomTopoOps, List.length_map])
  have hlast : ∀ e ∈ done, e.1 ≠ last := by
    rintro e he rfl
    have hmem : e.1 ∈ init := List.mem_of_getElem? (List.mem_zipIdx_iff_getElem?.mp (hdone he))
    have hn : sorted.Nodup := hsorted.nodup_iff.mpr (AList.keys_nodup _)
    rw [hsplit] at hn
    exact List.disjoint_of_nodup_append hn hmem (List.mem_singleton_self _)
  have hkey : last ∈ (t.collectReorderEntries room).keys := hsorted.mem_iff.mp (by rw [hsplit]; simp)
  refine ⟨t.commit (t.clearRoomTopoOps room ++ done.flatMap (t.eventOps room)), ?_, fun hall => ?_⟩
  · unfold Tables.reorderInBatches
    rw [if_neg (entries_ne_nil hsorted hsplit)]
    simp only
    have hmem : t.commit (t.clearRoomTopoOps room ++ done.flatMap (t.eventOps room)) ∈
        (sorted.zipIdx.foldl (Reordering.event t room) ⟨t, t.clearRoomTopoOps room, []⟩).commits := by
      rw [hzip, List.foldl_append]
      exact run_commits_subset _ _ hcommit
    split
    · exact hmem
    · exact List.mem_append_left _ hmem
  · have hrow := lookup_position hkey
    rw [← commit_stream t] at hrow
    obtain ⟨key, hroom, hlisted, -⟩ := hall (t.position room last) last hrow rfl
    exact commit_hides hlast key hroom hlisted

/-- After every commit of a reordering all events of the stream are listed just where all of them are
in one batch: the rows deleted and the operations of all events but the last stay below the limit,
or there is one event at most. -/
theorem reorder_lists_iff :
    (∀ t' ∈ (t.reorderInBatches room sorted).commits, t'.AllListed room) ↔ t.OneBatch room sorted := by
  constructor
  · intro h
    by_contra hfull
    obtain ⟨t', ht', hhidden⟩ := hidden_of_full hsorted hfull
    exact hhidden (h t' ht')
  · intro h t' ht'
    rw [commits_of_oneBatch hsorted h t' ht']
    exact commit_all_listed hsorted

end

/-! ## A large room -/

def placeId (k : Nat) : EventId := "$" ++ toString k

def placeMetadata (k : Nat) : EventMetadata := ⟨1, false, k, k + 1, k + 1, some (k + 1)⟩

theorem nodupKeys_places {K : Type} {f : Nat → K} (hf : Function.Injective f) (n : Nat) :
    ((List.range n).map fun k => (⟨f k, placeId k⟩ : Σ _ : K, EventId)).NodupKeys := by
  unfold List.NodupKeys List.keys
  rw [List.map_map]
  exact List.nodup_range.map hf

/-- A room whose events were appended one after the other, each after the one before it. -/
def lineRoom (n : Nat) : Tables :=
  { Tables.empty with
    roomPducountEventid := ⟨_, nodupKeys_places (f := fun k : Nat => (⟨1, k + 1⟩ : PduId)) (fun a b h => by
      have hcount := congrArg PduId.shorteventid h
      simp only at hcount
      omega) n⟩
    roomidTopologicalorderPducount := ⟨_, nodupKeys_places (f := fun k : Nat => (⟨1, k + 1, k + 1⟩ : TopoKey))
      (fun a b h => Nat.succ.inj (congrArg TopoKey.depth h)) n⟩
    eventidPduid := (List.range n).foldl (fun m k => m.insert (placeId k) ⟨1, k + 1⟩) ∅
    eventidMetadata := (List.range n).foldl (fun m k => m.insert (placeId k) (placeMetadata k)) ∅ }

theorem placeId_injective : Function.Injective placeId := by
  intro a b h
  have hlist := congrArg String.toList h
  simp only [placeId, String.toList_append, List.append_cancel_left_eq] at hlist
  have hdigits : Nat.toDigits 10 a = Nat.toDigits 10 b := by
    rw [← Nat.toList_repr, ← Nat.toList_repr]
    exact hlist
  have hvalue := congrArg (fun digits => Nat.ofDigitChars 10 digits 0) hdigits
  simpa only [Nat.ofDigitChars_toDigits (b := 10) (by decide) (by decide)] using hvalue

theorem line_sorted (n : Nat) : ((List.range n).map placeId).Perm ((lineRoom n).collectReorderEntries 1).keys := by
  refine (List.perm_ext_iff_of_nodup (List.nodup_range.map placeId_injective) (AList.keys_nodup _)).mpr fun id => ?_
  rw [List.mem_map]
  constructor
  · rintro ⟨k, hk, rfl⟩
    have hrow : (lineRoom n).roomPducountEventid.lookup ⟨1, k + 1⟩ = some (placeId k) :=
      AList.mem_entries_iff.mp (List.mem_map.mpr ⟨k, hk, rfl⟩)
    exact mem_entries_of_row hrow rfl
  · intro hid
    obtain ⟨k, hk, heq⟩ := List.mem_map.mp (AList.mem_entries_iff.mpr (lookup_position hid))
    refine ⟨k, hk, ?_⟩
    obtain ⟨-, hid⟩ := Sigma.mk.inj heq
    exact eq_of_heq hid

theorem length_line_rows (n : Nat) :
    ((lineRoom n).roomidTopologicalorderPducount.entries.filter fun r => r.1.shortroomid = 1).length = n := by
  have hall : ((lineRoom n).roomidTopologicalorderPducount.entries.filter fun r => r.1.shortroomid = 1) =
      (lineRoom n).roomidTopologicalorderPducount.entries := by
    refine List.filter_eq_self.mpr fun r hr => ?_
    obtain ⟨k, -, rfl⟩ := List.mem_map.mp hr
    rfl
  rw [hall]
  exact (List.length_map _).trans List.length_range

/-- A room of 25000 events in order: after the first commit some event is not listed. -/
theorem line_hidden :
    ∃ t' ∈ ((lineRoom 25000).reorderInBatches 1 ((List.range 25000).map placeId)).commits, ¬t'.AllListed 1 := by
  refine hidden_of_full (line_sorted 25000) fun h => ?_
  rcases h with hinit | hfits
  · have hlen := congrArg List.length hinit
    rw [List.length_dropLast, List.length_map, List.length_range] at hlen
    cases hlen
  · rw [length_line_rows] at hfits
    exact absurd (Nat.lt_of_le_of_lt (Nat.le_add_right _ _) hfits) (Nat.lt_irrefl _)

theorem reorder_lists_iff_line :
    (∀ t' ∈ ((lineRoom 2).reorderInBatches 1 [placeId 0, placeId 1]).commits, t'.AllListed 1) ∧
      (lineRoom 2).OneBatch 1 [placeId 0, placeId 1] := by
  have hfits : (lineRoom 2).OneBatch 1 [placeId 0, placeId 1] := by
    refine .inr ?_
    rw [length_line_rows]
    decide
  exact ⟨(reorder_lists_iff (line_sorted 2)).mpr hfits, hfits⟩

end Congruent.TimelineData
