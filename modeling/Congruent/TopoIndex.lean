import Congruent.TimelinePlaces

/-!
# The topological index (`parse_topo_stream`)

Iterating the index of a room reads the JSON and the metadata of the event of every row. A
row that is left behind when its event is removed ends the iteration in an error.
-/

namespace Congruent.TimelineData

/-! ## Iterating -/

inductive LookupError where
  | eventidPdu (id : EventId)
  | eventidMetadata (id : EventId)
  deriving DecidableEq

structure TopoToken where
  depth : Nat
  pduCount : PduCount
  deriving DecidableEq

namespace Tables

/-- A row of the index: an error, a row to drop, or a row to yield. -/
def topoItem (t : Tables) (key : TopoKey) (id : EventId) : Except LookupError (Option TopoToken) :=
  let p := topoKeyToPduId key
  match t.eventidPdu.lookup id, t.eventidMetadata.lookup id with
  | none, _ => .error (.eventidPdu id)
  | some _, none => .error (.eventidMetadata id)
  | some _, some m =>
    if m.matchesTimelinePosition key.depth p.pduCount then
      match p.pduCount with
      | .backfilled _ =>
        if t.eventidPduid.lookup id = some p then .ok (some ⟨key.depth, p.pduCount⟩) else .ok none
      | .normal _ => .ok (some ⟨key.depth, p.pduCount⟩)
    else .ok none

def parseTopoStream (t : Tables) : List (Σ _ : TopoKey, EventId) → Except LookupError (List TopoToken)
  | [] => .ok []
  | row :: rows => do
    let item ← t.topoItem row.1 row.2
    let items ← t.parseTopoStream rows
    return item.toList ++ items

def topoPdus (t : Tables) (room : Nat) : Except LookupError (List TopoToken) :=
  t.parseTopoStream (t.roomidTopologicalorderPducount.entries.filter fun row => row.1.shortroomid = room)

/-! ## Removing under the right key -/

/-- Every row that names the event is at its position and at the `depth` of its metadata. -/
def OneTopoRow (t : Tables) (id : EventId) : Prop :=
  ∀ key ∈ t.roomidTopologicalorderPducount.keys, t.roomidTopologicalorderPducount.lookup key = some id →
    ((t.getPduId id).any fun p => (t.eventidMetadata.lookup id).any fun m => key = topoPducountKey p m.depth) = true

def RemovesOneRow : TimelineAction → Tables → Prop
  | .removeFromTimeline id, t | .removeTimelinePointers id, t => t.OneTopoRow id
  | a, t => FreePositions a t

instance (t : Tables) (id : EventId) : Decidable (t.OneTopoRow id) :=
  inferInstanceAs (Decidable (∀ key ∈ t.roomidTopologicalorderPducount.keys, _ → _))

instance : ∀ (a : TimelineAction) (t : Tables), Decidable (RemovesOneRow a t)
  | .removeFromTimeline id, t | .removeTimelinePointers id, t => inferInstanceAs (Decidable (t.OneTopoRow id))
  | .insert x, t => inferInstanceAs (Decidable (FreePositions (.insert x) t))
  | .addPduOutlier .., _ | .reindexTopo .., _ | .replacePdu .., _ | .reorderTimeline .., _ => .isTrue trivial

end Tables

/-! ## The invariant -/

structure Indexed (t : Tables) : Prop where
  placed : Placed t
  current : ∀ id p m, t.eventidPduid.lookup id = some p → t.eventidMetadata.lookup id = some m →
    t.roomidTopologicalorderPducount.lookup (topoPducountKey p m.deprecatedLocalTopoDepth) = some id
  named : ∀ key id, t.roomidTopologicalorderPducount.lookup key = some id → t.eventidPduid.lookup id ≠ none

namespace Indexed

variable {t : Tables} {id : EventId} {p : PduId}

theorem insert {x : Insert} (h : Indexed t) (hfree : t.roomPducountEventid.lookup x.pduId = none)
    (hcount : x.backfill = false → 0 < x.pduId.shorteventid) : Indexed (t.insert x) := by
  refine ⟨h.placed.insert hfree hcount, fun id p m hp hm => ?_, fun key id hkey => ?_⟩
  · unfold Tables.insert at hp hm ⊢
    rw [Tables.lookup_insertRows_pduid] at hp
    rw [Tables.lookup_insertRows_metadata] at hm
    rw [Tables.lookup_insertRows_topo]
    by_cases hid : id = x.pdu.eventId
    · rw [if_pos hid, Option.some.injEq] at hp hm
      rw [← hp, ← hm, if_pos, hid]
      rfl
    · rw [if_neg hid] at hp hm
      have hrow := (h.placed.inverse p id).mpr hp
      rw [if_neg, Tables.lookup_removeMoved_topo]
      · exact h.current id p m hp hm
      · -- the row that goes is at another event's position
        intro hseen
        have hold : t.roomPducountEventid.lookup p = some x.pdu.eventId := (h.placed.inverse _ _).mpr hseen
        rw [hrow] at hold
        exact hid (Option.some.inj hold)
      · intro hkey
        have hp' : p = x.pduId := congrArg topoKeyToPduId hkey
        rw [hp', hfree] at hrow
        cases hrow
  · unfold Tables.insert at hkey ⊢
    rw [Tables.lookup_insertRows_topo] at hkey
    rw [Tables.lookup_insertRows_pduid]
    split
    · exact nofun
    · rename_i hid
      split at hkey
      · exact absurd (Option.some.inj hkey).symm hid
      · exact h.named key id (Tables.lookup_of_removeMoved_topo hkey)

theorem addPduOutlier (h : Indexed t) (id : EventId) (room : Nat) (json : Object) (decoded : Option Pdu) :
    Indexed (t.addPduOutlier id room json decoded) := by
  refine ⟨h.placed.addPduOutlier id room json decoded, ?_, ?_⟩ <;>
    rcases h.placed.addPduOutlier_eq id room json decoded with hsame | ⟨hunplaced, heq⟩
  · rw [hsame]
    exact h.current
  · rw [heq]
    intro id' p m hp hm
    have hne : id' ≠ id := by
      rintro rfl
      rw [hunplaced] at hp
      cases hp
    cases decoded with
    | none => exact h.current id' p m hp hm
    | some pdu => exact h.current id' p m hp ((AList.lookup_insert_ne hne).symm.trans hm)
  · rw [hsame]
    exact h.named
  · rw [heq]
    exact h.named

theorem current_ne (h : Indexed t) (hp : t.eventidPduid.lookup id = some p) {id' : EventId} {p' : PduId}
    (hid : id' ≠ id) (hp' : t.eventidPduid.lookup id' = some p') (depth depth' : Nat) :
    topoPducountKey p' depth' ≠ topoPducountKey p depth := by
  intro hkey
  have hpp : p' = p := congrArg topoKeyToPduId hkey
  rw [← h.placed.inverse, hpp, (h.placed.inverse p id).mpr hp] at hp'
  exact hid (Option.some.inj hp').symm

theorem reindexTopo (h : Indexed t) (hp : t.eventidPduid.lookup id = some p) (depth : Nat) :
    Indexed (t.reindexTopo p id depth) := by
  obtain ⟨-, m, hm, -⟩ := h.placed.rows id p hp
  refine ⟨h.placed.reindexTopo p id depth, fun id' p' m' hp' hm' => ?_, fun key id' hkey => ?_⟩
  · unfold Tables.reindexTopo at hp' hm' ⊢
    simp only at hp' hm' ⊢
    rw [hm, AList.lookup_insert_ite, AList.lookup_erase_eq]
    rw [AList.lookup_adjust, hm] at hm'
    by_cases hid : id' = id
    · rw [if_pos hid, Option.map_some, Option.some.injEq] at hm'
      rw [hid, hp, Option.some.injEq] at hp'
      rw [← hp', ← hm', if_pos rfl, hid]
    · rw [if_neg hid] at hm'
      rw [if_neg (h.current_ne hp hid hp' _ _), if_neg (h.current_ne hp hid hp' _ _)]
      exact h.current id' p' m' hp' hm'
  · unfold Tables.reindexTopo at hkey ⊢
    simp only at hkey ⊢
    rw [hm, AList.lookup_insert_ite, AList.lookup_erase_eq] at hkey
    split at hkey
    · rw [← Option.some.inj hkey, hp]
      exact nofun
    · split at hkey
      · cases hkey
      · exact h.named key id' hkey

theorem replacePdu {t' : Tables} {json : Object} {decoded : Option Pdu} (h : Indexed t)
    (hp : t.eventidPduid.lookup id = some p) (hs : t.replacePdu p json id decoded = some t') : Indexed t' := by
  refine ⟨h.placed.replacePdu hp hs, ?_, ?_⟩ <;> unfold Tables.replacePdu at hs <;>
    rw [(h.placed.inverse p id).mpr hp] at hs <;>
    simp only [Option.isNone_some, Bool.false_eq_true, if_false, Option.some.injEq] at hs <;>
    subst hs
  · intro id' p' m' hp' hm'
    cases decoded with
    | none => exact h.current id' p' m' hp' hm'
    | some pdu =>
      simp only at hp' hm' ⊢
      rw [AList.lookup_insert_ite] at hm' ⊢
      by_cases hid : id' = id
      · rw [if_pos hid, Option.some.injEq] at hm'
        rw [hid, hp, Option.some.injEq] at hp'
        rw [← hp', ← hm', if_pos rfl, hid]
      · rw [if_neg hid] at hm'
        rw [if_neg (h.current_ne hp hid hp' _ _)]
        exact h.current id' p' m' hp' hm'
  · intro key id' hkey
    cases decoded with
    | none => exact h.named key id' hkey
    | some pdu =>
      simp only at hkey ⊢
      rw [AList.lookup_insert_ite] at hkey
      split at hkey
      · rw [← Option.some.inj hkey, hp]
        exact nofun
      · exact h.named key id' hkey

theorem rewritten {t' : Tables} {room : Nat} {sorted : List EventId} (h : Indexed t)
    (hsorted : sorted.Perm (t.collectReorderEntries room).keys)
    (hw : Rewritten t t' room (t.replacements room sorted)) : Indexed t' := by
  refine ⟨h.placed.rewritten hsorted hw, fun id p m hp hm => ?_, fun key id hkey => ?_⟩
  · by_cases hid : ∃ r ∈ t.replacements room sorted, r.eventId = id
    · obtain ⟨r, hr, rfl⟩ := hid
      rw [hw.pduid r hr, Option.some.injEq] at hp
      rw [hw.metadata r hr] at hm
      obtain ⟨old, -, rfl⟩ := Option.map_eq_some_iff.mp hm
      rw [← hp]
      exact hw.topo r hr
    · have hother := fun r hr heq => hid ⟨r, hr, heq⟩
      rw [hw.pduidElse id hother] at hp
      rw [hw.metadataElse id hother] at hm
      have hroom : p.shortroomid ≠ room := by
        intro hroom
        refine hid ((h.placed.mem_sorted hsorted id).mpr ⟨p.shorteventid, ?_⟩)
        rw [hp, ← hroom]
      have hstays := hw.topoElse (topoPducountKey p m.deprecatedLocalTopoDepth) fun r hr heq =>
        hroom ((congrArg TopoKey.shortroomid heq).symm.trans (mem_replacements hr).1)
      rw [hstays]
      exact (if_neg hroom).trans (h.current id p m hp hm)
  · by_cases hid : ∃ r ∈ t.replacements room sorted, r.eventId = id
    · obtain ⟨r, hr, rfl⟩ := hid
      rw [hw.pduid r hr]
      exact nofun
    · rw [hw.pduidElse id fun r hr heq => hid ⟨r, hr, heq⟩]
      rw [hw.topoElse] at hkey
      · split at hkey
        · cases hkey
        · exact h.named key id hkey
      · rintro r hr rfl
        rw [hw.topo r hr] at hkey
        exact hid ⟨r, hr, Option.some.inj hkey⟩

theorem erase {t' : Tables} (h : Indexed t) (hone : t.OneTopoRow id) (hp : t.eventidPduid.lookup id = some p)
    (hplaced : Placed t') (hpduid : t'.eventidPduid = t.eventidPduid.erase id)
    (hmetadata : t'.eventidMetadata = t.eventidMetadata.erase id)
    (htopo : t'.roomidTopologicalorderPducount = (t.removePosition p id).roomidTopologicalorderPducount) :
    Indexed t' := by
  obtain ⟨-, m, hm, -⟩ := h.placed.rows id p hp
  have herase : t'.roomidTopologicalorderPducount =
      t.roomidTopologicalorderPducount.erase (topoPducountKey p m.depth) := by
    rw [htopo]
    unfold Tables.removePosition Tables.removeTopo
    simp only [hm]
  refine ⟨hplaced, fun id' p' m' hp' hm' => ?_, fun key id' hkey => ?_⟩
  · rw [hpduid, AList.lookup_erase_eq] at hp'
    rw [hmetadata, AList.lookup_erase_eq] at hm'
    by_cases hid : id' = id
    · rw [if_pos hid] at hp'
      cases hp'
    · rw [if_neg hid] at hp' hm'
      rw [herase, AList.lookup_erase_ne (h.current_ne hp hid hp' _ _)]
      exact h.current id' p' m' hp' hm'
  · rw [herase, AList.lookup_erase_eq] at hkey
    split at hkey
    · cases hkey
    · rename_i hne
      rw [hpduid, AList.lookup_erase_eq, if_neg]
      · exact h.named key id' hkey
      · -- the row of the event is the one that went
        rintro rfl
        have hmem : key ∈ t.roomidTopologicalorderPducount.keys :=
          AList.mem_keys.mp (AList.lookup_isSome.mp (by rw [hkey]; rfl))
        have hrow := hone key hmem hkey
        rw [h.placed.getPduId_eq, hp, hm] at hrow
        exact hne (of_decide_eq_true hrow)

theorem removeFromTimeline (h : Indexed t) (hone : t.OneTopoRow id) : Indexed (t.removeFromTimeline id) := by
  cases hp : t.eventidPduid.lookup id with
  | none =>
    rw [h.placed.removeFromTimeline_none hp]
    exact h
  | some p =>
    have hplaced := h.placed.removeFromTimeline id
    rw [h.placed.removeFromTimeline_eq hp] at hplaced ⊢
    exact h.erase hone hp hplaced rfl rfl rfl

theorem removeTimelinePointers (h : Indexed t) (hone : t.OneTopoRow id) : Indexed
    (t.removeTimelinePointers id) := by
  have hplaced := h.placed.removeTimelinePointers id
  cases hp : t.eventidPduid.lookup id with
  | none =>
    rw [h.placed.removeTimelinePointers_none hp] at hplaced ⊢
    refine ⟨hplaced, fun id' p m hp' hm => ?_, h.named⟩
    simp only at hm
    rw [AList.lookup_erase_eq] at hm
    split at hm
    · cases hm
    · exact h.current id' p m hp' hm
  | some p =>
    rw [h.placed.removeTimelinePointers_eq hp] at hplaced ⊢
    exact h.erase hone hp hplaced rfl rfl rfl

theorem step {a : TimelineAction} {t' : Tables} (h : Indexed t) (hok : Tables.RemovesOneRow a t)
    (hs : Tables.step a t = some t') : Indexed t' := by
  cases a with
  | insert x =>
    cases hs
    exact h.insert hok.1 hok.2
  | addPduOutlier id room json decoded =>
    cases hs
    exact h.addPduOutlier id room json decoded
  | reindexTopo id depth =>
    cases hs
    split
    · split
      · rename_i p hp
        exact h.reindexTopo ((h.placed.getPduId_eq id).symm.trans hp) depth
      · exact h
    · exact h
  | replacePdu id json decoded =>
    obtain ⟨p, hp, hs⟩ := Option.bind_eq_some_iff.mp hs
    exact h.replacePdu ((h.placed.getPduId_eq id).symm.trans hp) hs
  | reorderTimeline room sorted =>
    simp only [Tables.step] at hs
    split at hs
    · rename_i hsorted
      cases hs
      rcases reorderTimeline_rewritten h.placed.positions hsorted with hsame | hw
      · rw [hsame]
        exact h
      · exact h.rewritten hsorted hw
    · cases hs
  | removeFromTimeline id =>
    cases hs
    exact h.removeFromTimeline hok
  | removeTimelinePointers id =>
    cases hs
    exact h.removeTimelinePointers hok

theorem empty : Indexed Tables.empty := by
  refine ⟨.empty, ?_, ?_⟩ <;> simp [Tables.empty]

end Indexed

namespace Tables

/-! ## Iterating a coherent index -/

theorem topoItem_ok {t : Tables} {key : TopoKey} {id : EventId} (hjson : (t.eventidPdu.lookup id).isSome)
    (hmetadata : (t.eventidMetadata.lookup id).isSome) : ∃ item, t.topoItem key id = .ok item := by
  obtain ⟨json, hjson⟩ := Option.isSome_iff_exists.mp hjson
  obtain ⟨m, hm⟩ := Option.isSome_iff_exists.mp hmetadata
  unfold topoItem
  rw [hjson, hm]
  simp only
  split
  · split
    · split <;> exact ⟨_, rfl⟩
    · exact ⟨_, rfl⟩
  · exact ⟨_, rfl⟩

theorem parseTopoStream_ok {t : Tables} {rows : List (Σ _ : TopoKey, EventId)}
    (h : ∀ row ∈ rows, (t.eventidPdu.lookup row.2).isSome ∧ (t.eventidMetadata.lookup row.2).isSome) :
    ∃ items, t.parseTopoStream rows = .ok items := by
  induction rows with
  | nil => exact ⟨[], rfl⟩
  | cons row rows ih =>
    obtain ⟨hjson, hmetadata⟩ := h row List.mem_cons_self
    obtain ⟨item, hitem⟩ : ∃ item, t.topoItem row.1 row.2 = .ok item := topoItem_ok hjson hmetadata
    obtain ⟨items, hitems⟩ := ih fun row hrow => h row (List.mem_cons_of_mem _ hrow)
    refine ⟨item.toList ++ items, ?_⟩
    rw [parseTopoStream, hitem, hitems]
    rfl

variable {t : Tables}

/-- As long as no event is removed that has another row in the index than the one at its
position and `depth`: every event with a stream row has a row that is accepted, every row
names an event with its JSON and metadata, and no iteration ends in a lookup error. -/
theorem topo_index_coherent (hrun : Reaches step RemovesOneRow .empty t) :
    (∀ p id, t.roomPducountEventid.lookup p = some id → ∃ depth m,
      t.roomidTopologicalorderPducount.lookup (topoPducountKey p depth) = some id ∧
        t.eventidMetadata.lookup id = some m ∧ m.matchesTimelinePosition depth p.pduCount = true) ∧
    (∀ key id, t.roomidTopologicalorderPducount.lookup key = some id →
      (t.eventidPdu.lookup id).isSome ∧ (t.eventidMetadata.lookup id).isSome) ∧
    ∀ room, ∃ items, t.topoPdus room = .ok items := by
  have h : Indexed t := Reaches.invariant .empty (fun _ _ _ h hok hs => h.step hok hs) hrun
  have hnamed : ∀ key id, t.roomidTopologicalorderPducount.lookup key = some id →
      (t.eventidPdu.lookup id).isSome ∧ (t.eventidMetadata.lookup id).isSome := by
    intro key id hkey
    obtain ⟨p, hp⟩ := Option.ne_none_iff_exists'.mp (h.named key id hkey)
    obtain ⟨hjson, m, hm, -⟩ := h.placed.rows id p hp
    exact ⟨hjson, by rw [hm]; rfl⟩
  refine ⟨fun p id hrow => ?_, hnamed, fun room => ?_⟩
  · have hp := (h.placed.inverse p id).mp hrow
    obtain ⟨-, m, hm, hplaces⟩ := h.placed.rows id p hp
    exact ⟨_, m, h.current id p m hp hm, hm, hplaces.matches⟩
  · refine parseTopoStream_ok fun row hrow => hnamed row.1 row.2 ?_
    exact AList.mem_entries_iff.mp (List.mem_filter.mp hrow).1

/-- An event that was reindexed and put back can be removed. -/
theorem topo_index_coherent_back : ∃ t,
    runWhile step RemovesOneRow [.insert (messageAt (-5) true "$e" [] 5), .reindexTopo "$e" 9,
      .insert (messageAt 6 false "$f" [] 6), .reindexTopo "$e" 5, .removeFromTimeline "$e"] .empty = some t ∧
      ∃ items, t.topoPdus 1 = .ok items := by
  have hsome : (runWhile step RemovesOneRow [.insert (messageAt (-5) true "$e" [] 5), .reindexTopo "$e" 9,
      .insert (messageAt 6 false "$f" [] 6), .reindexTopo "$e" 5, .removeFromTimeline "$e"]
        .empty).isSome = true := by
    decide
  obtain ⟨t, ht⟩ := Option.isSome_iff_exists.mp hsome
  exact ⟨t, ht, (topo_index_coherent (.of_runWhile _ .init ht)).2.2 1⟩

/-- An event is reindexed to another depth and then removed: its row stays, and ends every
iteration. -/
theorem topo_row_left_behind : ∃ t, Reaches step FreePositions .empty t ∧
    t.topoPdus 1 = .error (.eventidPdu "$e") := by
  have hsome : (runWhile step FreePositions [.insert (messageAt (-5) true "$e" [] 5), .reindexTopo "$e" 9,
      .removeFromTimeline "$e"] .empty).map
        (fun t => (t.roomidTopologicalorderPducount.entries, t.eventidPdu.lookup "$e" |>.isSome)) =
      some ([⟨⟨1, 9, -5⟩, "$e"⟩], false) := by
    decide
  obtain ⟨t, ht, heq⟩ := Option.map_eq_some_iff.mp hsome
  obtain ⟨hrows, hjson⟩ := Prod.mk.inj heq
  refine ⟨t, .of_runWhile _ .init ht, ?_⟩
  have hnone : t.eventidPdu.lookup "$e" = none := Option.not_isSome_iff_eq_none.mp (by rw [hjson]; decide)
  unfold topoPdus
  rw [hrows]
  simp [parseTopoStream, topoItem, hnone]
  rfl

end Tables

end Congruent.TimelineData
