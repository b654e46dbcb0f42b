import Congruent.TimelinePlaces

/-!
# The timestamp index (`pdus_by_timestamp`)

Both ways to insert an event write a row of the index, and nothing takes one away: the row
of a position outlives it.
-/

namespace Congruent.TimelineData

theorem PduId.ofCount_pduCount (p : PduId) : PduId.ofCount p.shortroomid p.pduCount = p := by
  unfold PduId.ofCount PduId.pduCount
  rw [PduCount.intoSigned_fromSigned]

/-- "Timestamp index points to missing PDU". -/
structure MissingPdu where
  pduId : PduId

namespace Tables

/-- `get_pdu_from_id_in_room` of the position that a row names. -/
def timestampItem (t : Tables) (key : TimestampKey) : Except MissingPdu Object :=
  let p := PduId.ofCount key.shortroomid key.count
  match (t.roomPducountEventid.lookup p).bind fun id => t.eventidPdu.lookup id with
  | some json => .ok json
  | none => .error ⟨p⟩

/-! ## Keeping positions -/

def sortedCounts (t : Tables) (room : Nat) (sorted : List EventId) : List Int :=
  sorted.map fun id => ((t.collectReorderEntries room).lookup id).getD 0

def InCountOrder (t : Tables) (room : Nat) (sorted : List EventId) : Prop :=
  (∀ count ∈ t.sortedCounts room sorted, 0 ≤ count) ∧ (t.sortedCounts room sorted).Pairwise (· < ·)

def KeepsPositions : TimelineAction → Tables → Prop
  | .insert x, t => FreePositions (.insert x) t ∧ t.getPduId x.pdu.eventId = none ∧ x.timestamp.isSome = true
  | .removeFromTimeline id, t | .removeTimelinePointers id, t => t.getPduId id = none
  | .reorderTimeline room sorted, t => maxForceReindexEvents < sorted.length ∨ t.InCountOrder room sorted
  | .addPduOutlier .., _ | .reindexTopo .., _ | .replacePdu .., _ => True

instance (t : Tables) (room : Nat) (sorted : List EventId) : Decidable (t.InCountOrder room sorted) :=
  inferInstanceAs (Decidable (_ ∧ _))

instance : ∀ (a : TimelineAction) (t : Tables), Decidable (KeepsPositions a t)
  | .insert x, t => inferInstanceAs (Decidable (FreePositions (.insert x) t ∧ _ ∧ _))
  | .removeFromTimeline id, t | .removeTimelinePointers id, t => inferInstanceAs (Decidable (t.getPduId id = none))
  | .reorderTimeline _ sorted, _ => inferInstanceAs (Decidable (maxForceReindexEvents < sorted.length ∨ _))
  | .addPduOutlier .., _ | .reindexTopo .., _ | .replacePdu .., _ => .isTrue trivial

end Tables

theorem snd_of_mem_zip_map {α β : Type} {f : α → β} {l : List α} {e : α × β} (h : e ∈ l.zip (l.map f)) :
    e.2 = f e.1 := by
  induction l with
  | nil => cases h
  | cons a l ih =>
    rcases List.mem_cons.mp h with rfl | h
    · rfl
    · exact ih h

section
variable {t : Tables} {room : Nat} {sorted : List EventId}

theorem availableCounts_sorted (hsorted : sorted.Perm (t.collectReorderEntries room).keys)
    (hpos : ∀ count ∈ t.sortedCounts room sorted, 0 ≤ count)
    (horder : (t.sortedCounts room sorted).Pairwise (· < ·)) :
    availableCounts ((t.collectReorderEntries room).entries.map (·.2)) =
      (t.sortedCounts room sorted).map Int.natAbs := by
  have hvalues : ((t.collectReorderEntries room).entries.map (·.2)).Perm (t.sortedCounts room sorted) := by
    have hmap : (t.collectReorderEntries room).entries.map (·.2) =
        (t.collectReorderEntries room).keys.map fun id => ((t.collectReorderEntries room).lookup id).getD 0 := by
      unfold AList.keys List.keys
      rw [List.map_map]
      refine List.map_congr_left fun e he => ?_
      simp only [Function.comp_apply]
      rw [AList.mem_entries_iff.mp he]
      rfl
    rw [hmap]
    exact (hsorted.map _).symm
  have hincreasing : ((t.sortedCounts room sorted).map Int.natAbs).Pairwise (· < ·) := by
    rw [List.pairwise_map]
    refine horder.imp_of_mem fun ha hb hlt => ?_
    have ha := hpos _ ha
    have hb := hpos _ hb
    omega
  have hsort : (((t.collectReorderEntries room).entries.map (·.2)).map Int.natAbs).insertionSort (· ≤ ·) =
      (t.sortedCounts room sorted).map Int.natAbs := by
    have hantisymm : ∀ a b : Nat, a ≤ b → b ≤ a → a = b := fun a b => Nat.le_antisymm
    refine List.Perm.eq_of_pairwise (fun a b _ _ => hantisymm a b) (List.pairwise_insertionSort _ _)
      (hincreasing.imp Nat.le_of_lt) ?_
    exact (List.perm_insertionSort _ _).trans (hvalues.map _)
  have hnodup : ((t.sortedCounts room sorted).map Int.natAbs).Nodup := hincreasing.imp Nat.ne_of_lt
  unfold availableCounts
  simp only [hsort]
  rw [hnodup.dedup, hvalues.length_eq, List.length_map, Nat.sub_self, fillCounts]

theorem replacements_keep (h : Placed t) (hsorted : sorted.Perm (t.collectReorderEntries room).keys)
    (horder : t.InCountOrder room sorted) {r : Replaced} (hr : r ∈ t.replacements room sorted) :
    t.eventidPduid.lookup r.eventId = some r.pduId := by
  obtain ⟨hpos, hincreasing⟩ := horder
  have hid : r.eventId ∈ sorted := by
    rw [← map_eventId_replacements hsorted]
    exact List.mem_map_of_mem hr
  obtain ⟨count, hcount⟩ :=
    (mem_keys_collectReorderEntries h.positions r.eventId).mp (hsorted.mem_iff.mp hid)
  have hentry := (lookup_collectReorderEntries h.positions r.eventId count).mpr ((h.inverse _ _).mpr hcount)
  have hnonneg := hpos count (List.mem_map.mpr ⟨r.eventId, hid, by rw [hentry]; rfl⟩)
  unfold Tables.replacements at hr
  rw [availableCounts_sorted hsorted hpos hincreasing] at hr
  obtain ⟨⟨⟨id, n⟩, i⟩, he, rfl⟩ := List.mem_map.mp hr
  have hzip := List.fst_mem_of_mem_zipIdx he
  unfold Tables.sortedCounts at hzip
  rw [List.map_map] at hzip
  have hn : n = (((t.collectReorderEntries room).lookup id).getD 0).natAbs := snd_of_mem_zip_map hzip
  simp only at hcount hentry ⊢
  rw [hentry, Option.getD_some] at hn
  have hcast : (n : Int) = count := by omega
  rw [hcount, hcast]

end

/-! ## The invariant -/

/-- The rows of the index are those of the positions that are taken. -/
structure Stamped (t : Tables) : Prop where
  placed : Placed t
  named : ∀ key, t.roomidTimestampPducount.lookup key ≠ none →
    t.roomPducountEventid.lookup (.ofCount key.shortroomid key.count) ≠ none
  stamped : ∀ p, t.roomPducountEventid.lookup p ≠ none →
    ∃ ts, t.roomidTimestampPducount.lookup (packTimestampKey p ts) ≠ none

namespace Stamped

variable {t t' : Tables}

theorem congr (h : Stamped t) (hplaced : Placed t')
    (hstream : ∀ p, t'.roomPducountEventid.lookup p = t.roomPducountEventid.lookup p)
    (htimestamps : t'.roomidTimestampPducount = t.roomidTimestampPducount) : Stamped t' := by
  refine ⟨hplaced, fun key hkey => ?_, fun p hp => ?_⟩
  · rw [htimestamps] at hkey
    rw [hstream]
    exact h.named key hkey
  · rw [hstream] at hp
    rw [htimestamps]
    exact h.stamped p hp

theorem insert {x : Insert} (h : Stamped t) (hfree : t.roomPducountEventid.lookup x.pduId = none)
    (hcount : x.backfill = false → 0 < x.pduId.shorteventid) (hnew : t.getPduId x.pdu.eventId = none)
    (hts : x.timestamp.isSome = true) : Stamped (t.insert x) := by
  obtain ⟨ts, hts⟩ := Option.isSome_iff_exists.mp hts
  have hnone : (t.see x).pduId = none := (h.placed.getPduId_eq _).symm.trans hnew
  have hstream : ∀ p, (t.insert x).roomPducountEventid.lookup p =
      if p = x.pduId then some x.pdu.eventId else t.roomPducountEventid.lookup p := by
    intro p
    unfold Tables.insert
    rw [Tables.lookup_insertRows_stream, hnone]
    simp
  refine ⟨h.placed.insert hfree hcount, fun key hkey => ?_, fun p hp => ?_⟩
  · unfold Tables.insert at hkey
    rw [Tables.lookup_insertRows_timestamp, hts] at hkey
    rw [hstream]
    split
    · exact nofun
    · rename_i hne
      split at hkey
      · rename_i heq
        rw [← Option.some.inj heq] at hne
        exact absurd (PduId.ofCount_pduCount x.pduId) hne
      · exact h.named key hkey
  · unfold Tables.insert
    rw [hstream] at hp
    by_cases hpx : p = x.pduId
    · refine ⟨ts, ?_⟩
      rw [Tables.lookup_insertRows_timestamp, hts, hpx, Option.map_some, if_pos rfl]
      exact nofun
    · rw [if_neg hpx] at hp
      obtain ⟨ts', hts'⟩ := h.stamped p hp
      refine ⟨ts', ?_⟩
      rw [Tables.lookup_insertRows_timestamp]
      split
      · exact nofun
      · exact hts'

theorem rewritten {room : Nat} {sorted : List EventId} (h : Stamped t)
    (hsorted : sorted.Perm (t.collectReorderEntries room).keys) (horder : t.InCountOrder room sorted)
    (hw : Rewritten t t' room (t.replacements room sorted)) : Stamped t' := by
  refine h.congr (h.placed.rewritten hsorted hw) (fun p => ?_) hw.timestamps
  by_cases hp : ∃ r ∈ t.replacements room sorted, r.pduId = p
  · obtain ⟨r, hr, rfl⟩ := hp
    rw [hw.stream r hr]
    exact ((h.placed.inverse _ _).mpr (replacements_keep h.placed hsorted horder hr)).symm
  · rw [hw.streamElse p fun r hr heq => hp ⟨r, hr, heq⟩]
    split
    · -- a row of the room is that of an entry, which keeps it
      rename_i hroom
      by_contra hrow
      obtain ⟨id, hid⟩ := Option.ne_none_iff_exists'.mp (Ne.symm hrow)
      have hold := (h.placed.inverse p id).mp hid
      obtain ⟨r, hr, rfl⟩ := (h.placed.mem_sorted hsorted id).mpr ⟨p.shorteventid, by rw [hold, ← hroom]⟩
      have hkeep := replacements_keep h.placed hsorted horder hr
      rw [hold, Option.some.injEq] at hkeep
      exact hp ⟨r, hr, hkeep.symm⟩
    · rfl

theorem step {a : TimelineAction} (h : Stamped t) (hok : Tables.KeepsPositions a t)
    (hs : Tables.step a t = some t') : Stamped t' := by
  cases a with
  | insert x =>
    cases hs
    exact h.insert hok.1.1 hok.1.2 hok.2.1 hok.2.2
  | addPduOutlier id room json decoded =>
    cases hs
    refine h.congr (h.placed.addPduOutlier id room json decoded) (fun p => ?_) ?_ <;>
      rcases h.placed.addPduOutlier_eq id room json decoded with heq | ⟨-, heq⟩ <;> rw [heq]
  | reindexTopo id depth =>
    have hplaced := h.placed.step (a := .reindexTopo id depth) trivial hs
    cases hs
    -- a reindex writes topological rows and metadata only
    split at hplaced
    · rename_i hmember
      rw [if_pos hmember]
      split at hplaced
      · exact h.congr hplaced (fun _ => rfl) rfl
      · exact h
    · rename_i hmember
      rw [if_neg hmember]
      exact h
  | replacePdu id json decoded =>
    have hplaced := h.placed.step (a := .replacePdu id json decoded) trivial hs
    obtain ⟨p, -, hs⟩ := Option.bind_eq_some_iff.mp hs
    unfold Tables.replacePdu at hs
    split at hs
    · cases hs
    · cases decoded <;> cases hs <;> exact h.congr hplaced (fun _ => rfl) rfl
  | reorderTimeline room sorted =>
    simp only [Tables.step] at hs
    split at hs
    · rename_i hsorted
      cases hs
      rcases hok with hlimit | horder
      · unfold Tables.reorderTimeline
        rw [if_pos (.inr hlimit)]
        exact h
      · rcases reorderTimeline_rewritten h.placed.positions hsorted with hsame | hw
        · rw [hsame]
          exact h
        · exact h.rewritten hsorted horder hw
    · cases hs
  | removeFromTimeline id =>
    cases hs
    rw [h.placed.removeFromTimeline_none ((h.placed.getPduId_eq id).symm.trans hok)]
    exact h
  | removeTimelinePointers id =>
    cases hs
    have hplaced := h.placed.removeTimelinePointers id
    rw [h.placed.removeTimelinePointers_none ((h.placed.getPduId_eq id).symm.trans hok)] at hplaced ⊢
    exact h.congr hplaced (fun _ => rfl) rfl

theorem empty : Stamped Tables.empty := by
  refine ⟨.empty, ?_, ?_⟩ <;> simp [Tables.empty]

end Stamped

namespace Tables

variable {t : Tables}

/-- As long as no event loses its position (it is not removed, nor inserted again, nor
renumbered) and inserted events have a timestamp: every row of the index names a stream row,
every stream row has a row of the index, and no row is that of a missing event. -/
theorem timestamp_index_coherent (hrun : Reaches step KeepsPositions .empty t) :
    (∀ key, t.roomidTimestampPducount.lookup key ≠ none →
      t.roomPducountEventid.lookup (.ofCount key.shortroomid key.count) ≠ none) ∧
    (∀ p id, t.roomPducountEventid.lookup p = some id →
      ∃ ts, t.roomidTimestampPducount.lookup (packTimestampKey p ts) ≠ none) ∧
    ∀ key, t.roomidTimestampPducount.lookup key ≠ none → ∃ json, t.timestampItem key = .ok json := by
  have h : Stamped t := Reaches.invariant .empty (fun _ _ _ h hok hs => h.step hok hs) hrun
  refine ⟨h.named, fun p id hrow => h.stamped p (by rw [hrow]; exact nofun), fun key hkey => ?_⟩
  obtain ⟨id, hid⟩ := Option.ne_none_iff_exists'.mp (h.named key hkey)
  obtain ⟨json, hjson⟩ := Option.isSome_iff_exists.mp (h.placed.rows id _ ((h.placed.inverse _ _).mp hid)).1
  refine ⟨json, ?_⟩
  unfold timestampItem
  simp only [hid, Option.bind_some, hjson]

/-- Two events are renumbered in the order they came in, and one is reindexed. -/
theorem timestamp_index_coherent_renumbered : ∃ t,
    runWhile step KeepsPositions [.insert (messageAt 5 false "$e" [] 5), .insert (messageAt 8 false "$f" ["$e"] 6),
      .reorderTimeline 1 ["$e", "$f"], .reindexTopo "$f" 9] .empty = some t ∧
      ∃ json, t.timestampItem ⟨1, 7, .normal 8⟩ = .ok json := by
  have hsome : (runWhile step KeepsPositions [.insert (messageAt 5 false "$e" [] 5),
      .insert (messageAt 8 false "$f" ["$e"] 6), .reorderTimeline 1 ["$e", "$f"], .reindexTopo "$f" 9] .empty).map
        (fun t => t.roomidTimestampPducount.lookup ⟨1, 7, .normal 8⟩) = some (some ()) := by
    decide
  obtain ⟨t, ht, hkey⟩ := Option.map_eq_some_iff.mp hsome
  refine ⟨t, ht, (timestamp_index_coherent (.of_runWhile _ .init ht)).2.2 _ ?_⟩
  rw [hkey]
  exact nofun

/-- An event is removed: its row of the index names no stream row. -/
theorem timestamp_row_left_behind : ∃ t, Reaches step FreePositions .empty t ∧
    ∃ key, t.roomidTimestampPducount.lookup key ≠ none ∧
      t.roomPducountEventid.lookup (.ofCount key.shortroomid key.count) = none ∧
        t.timestampItem key = .error ⟨⟨1, 5⟩⟩ := by
  have hsome : (runWhile step FreePositions [.insert (messageAt 5 false "$e" [] 5), .removeFromTimeline "$e"]
      .empty).map (fun t => (t.roomidTimestampPducount.lookup ⟨1, 7, .normal 5⟩,
        t.roomPducountEventid.lookup ⟨1, 5⟩)) =
      some (some (), none) := by
    decide
  obtain ⟨t, ht, heq⟩ := Option.map_eq_some_iff.mp hsome
  obtain ⟨hkey, hrow⟩ := Prod.mk.inj heq
  refine ⟨t, .of_runWhile _ .init ht, ⟨1, 7, .normal 5⟩, by rw [hkey]; exact nofun, hrow, ?_⟩
  have hitem : t.roomPducountEventid.lookup (.ofCount 1 (.normal 5)) = none := hrow
  unfold timestampItem
  simp only [hitem]
  rfl

end Tables

end Congruent.TimelineData
