import Congruent.TimelineOps

/-!
# Positions in the timeline

What every operation on the timeline keeps: the two tables of positions are inverse to each
other, and the metadata and the JSON of an event that has a position are there.
-/

namespace Congruent.TimelineData

structure EventMetadata.Places (m : EventMetadata) (p : PduId) : Prop where
  timeline : m.isOutlier = false
  room : m.shortRoomId = p.shortroomid
  count : ∀ c, m.pduCount = some c → (c : Int) = p.shorteventid
  normal : 0 < p.shorteventid → m.pduCount ≠ none

theorem EventMetadata.Places.matches {m : EventMetadata} {p : PduId} (h : m.Places p) :
    m.matchesTimelinePosition m.deprecatedLocalTopoDepth p.pduCount = true := by
  unfold matchesTimelinePosition PduId.pduCount PduCount.fromSigned
  rw [h.timeline]
  by_cases hle : p.shorteventid ≤ 0
  · cases hc : m.pduCount with
    | none => simp [hle]
    | some c =>
      have hcount := h.count c hc
      have hc : c = p.shorteventid.natAbs := by omega
      simp [hle, hc]
  · obtain ⟨c, hc⟩ := Option.ne_none_iff_exists'.mp (h.normal (Int.lt_of_not_ge hle))
    have hcount := h.count c hc
    have hto : c = p.shorteventid.toNat := by omega
    simp [hle, hc, hto, PduCount.intoUnsigned]

structure Placed (t : Tables) : Prop where
  inverse : ∀ p id, t.roomPducountEventid.lookup p = some id ↔ t.eventidPduid.lookup id = some p
  rows : ∀ id p, t.eventidPduid.lookup id = some p →
    (t.eventidPdu.lookup id).isSome ∧ ∃ m, t.eventidMetadata.lookup id = some m ∧ m.Places p
  unplaced : ∀ id m, t.eventidPduid.lookup id = none → t.eventidMetadata.lookup id = some m → m.pduCount = none

namespace Placed

variable {t : Tables} {id : EventId} {p : PduId}

theorem getPduId_eq (h : Placed t) (id : EventId) : t.getPduId id = t.eventidPduid.lookup id := by
  unfold Tables.getPduId
  cases hm : t.eventidMetadata.lookup id with
  | none => rfl
  | some m =>
    cases hc : m.pduCount with
    | none => simp [hc]
    | some c =>
      cases hp : t.eventidPduid.lookup id with
      | none =>
        have hnone := h.unplaced id m hp hm
        rw [hc] at hnone
        cases hnone
      | some p =>
        obtain ⟨-, m', hm', hplaces⟩ := h.rows id p hp
        rw [hm, Option.some.injEq] at hm'
        subst hm'
        have hid := PduId.ofCount_fromUnsigned (hplaces.count c hc)
        rw [← hplaces.room] at hid
        simp [hc, hid]

theorem positions (h : Placed t) : Positions t := ⟨h.inverse, h.getPduId_eq⟩

/-! ## Inserting and writing over -/

theorem insert {x : Insert} (h : Placed t) (hfree : t.roomPducountEventid.lookup x.pduId = none)
    (hcount : x.backfill = false → 0 < x.pduId.shorteventid) : Placed (t.insert x) where
  inverse := (h.positions.insertRows rfl hfree hcount).inverse
  rows id p hp := by
    unfold Tables.insert at hp ⊢
    rw [Tables.lookup_insertRows_pduid] at hp
    rw [Tables.lookup_insertRows_pdu, Tables.lookup_insertRows_metadata]
    by_cases hid : id = x.pdu.eventId
    · rw [if_pos hid, Option.some.injEq] at hp
      rw [if_pos hid, if_pos hid, ← hp]
      refine ⟨rfl, x.metadata, rfl, rfl, rfl, fun c hc => Insert.metadata_pduCount hcount hc, fun hpos => ?_⟩
      have hle : ¬ x.pduId.shorteventid ≤ 0 := by omega
      unfold Insert.metadata PduId.pduCount PduCount.fromSigned
      simp only [hle, if_false]
      split <;> exact nofun
    · rw [if_neg hid] at hp
      rw [if_neg hid, if_neg hid]
      exact h.rows id p hp
  unplaced id m hp hm := by
    unfold Tables.insert at hp hm
    rw [Tables.lookup_insertRows_pduid] at hp
    rw [Tables.lookup_insertRows_metadata] at hm
    by_cases hid : id = x.pdu.eventId
    · rw [if_pos hid] at hp
      cases hp
    · rw [if_neg hid] at hp hm
      exact h.unplaced id m hp hm

theorem addPduOutlier_eq (h : Placed t) (id : EventId) (room : Nat) (json : Object) (decoded : Option Pdu) :
    t.addPduOutlier id room json decoded = t ∨
      t.eventidPduid.lookup id = none ∧ t.addPduOutlier id room json decoded = { t with
        eventidPdu := t.eventidPdu.insert id (json.insert "event_id" (.str id))
        eventidMetadata :=
          match decoded with
          | some pdu => t.eventidMetadata.insert id ⟨room, true, pdu.originServerTs, pdu.depth, 0, none⟩
          | none => t.eventidMetadata } := by
  unfold Tables.addPduOutlier
  by_cases hskip : (t.eventidMetadata.lookup id).any (fun m => !m.isOutlier) = true
  · exact .inl (if_pos hskip)
  refine .inr ⟨?_, if_neg hskip⟩
  by_contra hp
  obtain ⟨p, hp⟩ := Option.ne_none_iff_exists'.mp hp
  obtain ⟨-, m, hm, hplaces⟩ := h.rows id p hp
  rw [hm] at hskip
  simp [hplaces.timeline] at hskip

theorem addPduOutlier (h : Placed t) (id : EventId) (room : Nat) (json : Object) (decoded : Option Pdu) :
    Placed (t.addPduOutlier id room json decoded) := by
  rcases h.addPduOutlier_eq id room json decoded with hsame | ⟨hunplaced, heq⟩
  · rw [hsame]
    exact h
  rw [heq]
  refine ⟨h.inverse, fun id' p hp => ?_, fun id' m hp hm => ?_⟩
  · have hne : id' ≠ id := by
      rintro rfl
      rw [hunplaced] at hp
      cases hp
    obtain ⟨hjson, m, hm, hplaces⟩ := h.rows id' p hp
    refine ⟨?_, m, ?_, hplaces⟩
    · exact (AList.lookup_insert_ne hne).symm ▸ hjson
    · cases decoded with
      | none => exact hm
      | some pdu => exact (AList.lookup_insert_ne hne).trans hm
  · cases decoded with
    | none => exact h.unplaced id' m hp hm
    | some pdu =>
      simp only at hm
      rw [AList.lookup_insert_ite] at hm
      split at hm
      · rw [← Option.some.inj hm]
      · exact h.unplaced id' m hp hm

theorem reindexTopo (h : Placed t) (p : PduId) (id : EventId) (depth : Nat) : Placed
    (t.reindexTopo p id depth) := by
  unfold Tables.reindexTopo
  refine ⟨h.inverse, fun id' p' hp => ?_, fun id' m hp hm => ?_⟩
  · obtain ⟨hjson, m, hm, hplaces⟩ := h.rows id' p' hp
    refine ⟨hjson, ?_⟩
    simp only
    rw [AList.lookup_adjust]
    by_cases hid : id' = id
    · subst hid
      rw [if_pos rfl, hm]
      exact ⟨_, rfl, hplaces.timeline, hplaces.room, hplaces.count, hplaces.normal⟩
    · rw [if_neg hid]
      exact ⟨m, hm, hplaces⟩
  · simp only at hm
    rw [AList.lookup_adjust] at hm
    split at hm
    · rename_i hid
      obtain ⟨old, hold, rfl⟩ := Option.map_eq_some_iff.mp hm
      exact h.unplaced id old (hid ▸ hp) hold
    · exact h.unplaced id' m hp hm

theorem replacePdu {t' : Tables} {json : Object} {decoded : Option Pdu} (h : Placed t)
    (hp : t.eventidPduid.lookup id = some p) (hs : t.replacePdu p json id decoded = some t') : Placed t' := by
  unfold Tables.replacePdu at hs
  rw [(h.inverse p id).mpr hp] at hs
  simp only [Option.isNone_some, Bool.false_eq_true, if_false, Option.some.injEq] at hs
  have hjson : ∀ id', (t.eventidPdu.lookup id').isSome → ((t.eventidPdu.insert id json).lookup id').isSome := by
    intro id' hsome
    rw [AList.lookup_insert_ite]
    split
    · rfl
    · exact hsome
  cases decoded with
  | none =>
    subst hs
    refine ⟨h.inverse, fun id' p' hp' => ?_, h.unplaced⟩
    exact ⟨hjson id' (h.rows id' p' hp').1, (h.rows id' p' hp').2⟩
  | some pdu =>
    subst hs
    refine ⟨h.inverse, fun id' p' hp' => ⟨hjson id' (h.rows id' p' hp').1, ?_⟩, fun id' m hp' hm => ?_⟩
    · simp only
      rw [AList.lookup_insert_ite]
      by_cases hid : id' = id
      · have hpp : p' = p := by
          rw [hid, hp] at hp'
          exact (Option.some.inj hp').symm
        rw [if_pos hid, hpp]
        refine ⟨_, rfl, rfl, rfl, fun c hc => ?_, fun hpos => ?_⟩
        · unfold PduId.pduCount PduCount.fromSigned at hc
          by_cases hle : p.shorteventid ≤ 0
          · simp [hle] at hc
          · simp only [hle, if_false, Option.some.injEq] at hc
            omega
        · have hle : ¬ p.shorteventid ≤ 0 := by omega
          simp [PduId.pduCount, PduCount.fromSigned, hle]
      · rw [if_neg hid]
        exact (h.rows id' p' hp').2
    · simp only at hm
      rw [AList.lookup_insert_ite] at hm
      split at hm
      · rename_i hid
        rw [hid, hp] at hp'
        cases hp'
      · exact h.unplaced id' m hp' hm

/-! ## Removing -/

theorem erase (h : Placed t) (hp : t.eventidPduid.lookup id = some p) {t' : Tables}
    (hstream : t'.roomPducountEventid = t.roomPducountEventid.erase p)
    (hpduid : t'.eventidPduid = t.eventidPduid.erase id)
    (hpdu : ∀ id', id' ≠ id → t'.eventidPdu.lookup id' = t.eventidPdu.lookup id')
    (hmetadata : t'.eventidMetadata = t.eventidMetadata.erase id) : Placed t' := by
  have hrow := (h.inverse p id).mpr hp
  refine ⟨fun p' id' => ?_, fun id' p' hp' => ?_, fun id' m hp' hm => ?_⟩
  · rw [hstream, hpduid, AList.lookup_erase_eq, AList.lookup_erase_eq]
    by_cases hpp : p' = p <;> by_cases hid : id' = id
    · simp [hpp, hid]
    · rw [if_pos hpp, if_neg hid, ← h.inverse, hpp, hrow]
      simp [Ne.symm hid]
    · rw [if_neg hpp, if_pos hid, h.inverse, hid, hp]
      simp [Ne.symm hpp]
    · rw [if_neg hpp, if_neg hid]
      exact h.inverse p' id'
  · rw [hpduid, AList.lookup_erase_eq] at hp'
    by_cases hid : id' = id
    · rw [if_pos hid] at hp'
      cases hp'
    · rw [if_neg hid] at hp'
      rw [hpdu id' hid, hmetadata, AList.lookup_erase_ne hid]
      exact h.rows id' p' hp'
  · rw [hpduid, AList.lookup_erase_eq] at hp'
    rw [hmetadata, AList.lookup_erase_eq] at hm
    by_cases hid : id' = id
    · rw [if_pos hid] at hm
      cases hm
    · rw [if_neg hid] at hp' hm
      exact h.unplaced id' m hp' hm

theorem outlierPduExists_eq (h : Placed t) (hp : t.eventidPduid.lookup id = some p) :
    t.outlierPduExists id = false := by
  obtain ⟨-, m, hm, hplaces⟩ := h.rows id p hp
  unfold Tables.outlierPduExists
  rw [hm]
  exact hplaces.timeline

theorem removeFromTimeline_eq (h : Placed t) (hp : t.eventidPduid.lookup id = some p) :
    t.removeFromTimeline id = { t.removePosition p id with
      eventidPdu := t.eventidPdu.erase id
      eventidMetadata := t.eventidMetadata.erase id } := by
  unfold Tables.removeFromTimeline
  rw [h.getPduId_eq, hp]
  have hout : (t.removePosition p id).outlierPduExists id = false := h.outlierPduExists_eq hp
  simp only [hout, Bool.false_eq_true, if_false]
  rfl

theorem removeFromTimeline_none (h : Placed t) (hp : t.eventidPduid.lookup id = none) :
    t.removeFromTimeline id = t := by
  unfold Tables.removeFromTimeline
  rw [h.getPduId_eq, hp]

theorem removeTimelinePointers_eq (h : Placed t) (hp : t.eventidPduid.lookup id = some p) :
    t.removeTimelinePointers id = { t.removePosition p id with eventidMetadata := t.eventidMetadata.erase id } := by
  unfold Tables.removeTimelinePointers
  rw [h.getPduId_eq, hp]
  rfl

theorem removeTimelinePointers_none (h : Placed t) (hp : t.eventidPduid.lookup id = none) :
    t.removeTimelinePointers id = { t with eventidMetadata := t.eventidMetadata.erase id } := by
  unfold Tables.removeTimelinePointers
  rw [h.getPduId_eq, hp]

theorem removeFromTimeline (h : Placed t) (id : EventId) : Placed (t.removeFromTimeline id) := by
  cases hp : t.eventidPduid.lookup id with
  | none =>
    rw [h.removeFromTimeline_none hp]
    exact h
  | some p =>
    rw [h.removeFromTimeline_eq hp]
    exact h.erase hp rfl rfl (fun id' hid => AList.lookup_erase_ne hid) rfl

theorem removeTimelinePointers (h : Placed t) (id : EventId) : Placed (t.removeTimelinePointers id) := by
  cases hp : t.eventidPduid.lookup id with
  | none =>
    rw [h.removeTimelinePointers_none hp]
    refine ⟨h.inverse, fun id' p hp' => ?_, fun id' m hp' hm => ?_⟩
    · have hne : id' ≠ id := by
        rintro rfl
        rw [hp] at hp'
        cases hp'
      obtain ⟨hjson, m, hm, hplaces⟩ := h.rows id' p hp'
      exact ⟨hjson, m, (AList.lookup_erase_ne hne).trans hm, hplaces⟩
    · simp only at hm
      rw [AList.lookup_erase_eq] at hm
      split at hm
      · cases hm
      · exact h.unplaced id' m hp' hm
  | some p =>
    rw [h.removeTimelinePointers_eq hp]
    exact h.erase hp rfl rfl (fun _ _ => rfl) rfl

/-! ## Reordering -/

theorem mem_sorted {room : Nat} {sorted : List EventId} (h : Placed t)
    (hsorted : sorted.Perm (t.collectReorderEntries room).keys) (id : EventId) :
    (∃ r ∈ t.replacements room sorted, r.eventId = id) ↔ ∃ count, t.eventidPduid.lookup id =
      some ⟨room, count⟩ := by
  rw [← mem_keys_collectReorderEntries h.positions, ← hsorted.mem_iff]
  have hmem : id ∈ (t.replacements room sorted).map (·.eventId) ↔ _ := List.mem_map
  rw [map_eventId_replacements hsorted] at hmem
  exact hmem.symm

theorem replacement_eq {room : Nat} {sorted : List EventId}
    (hsorted : sorted.Perm (t.collectReorderEntries room).keys)
    {r r' : Replaced} (hr : r ∈ t.replacements room sorted) (hr' : r' ∈ t.replacements room sorted)
    (heq : r.eventId = r'.eventId) : r = r' := by
  have hnodup : ((t.replacements room sorted).map (·.eventId)).Nodup := by
    rw [map_eventId_replacements hsorted]
    exact hsorted.nodup_iff.mpr (t.collectReorderEntries room).keys_nodup
  exact List.inj_on_of_nodup_map hnodup hr hr' heq

theorem rewritten {t' : Tables} {room : Nat} {sorted : List EventId} (h : Placed t)
    (hsorted : sorted.Perm (t.collectReorderEntries room).keys)
    (hw : Rewritten t t' room (t.replacements room sorted)) : Placed t' := by
  refine ⟨fun p id => ?_, fun id p hp => ?_, fun id m hp hm => ?_⟩
  · by_cases hid : ∃ r ∈ t.replacements room sorted, r.eventId = id
    · obtain ⟨count, hold⟩ := (h.mem_sorted hsorted id).mp hid
      obtain ⟨r, hr, rfl⟩ := hid
      rw [hw.pduid r hr]
      constructor
      · intro hrow
        by_cases hp : ∃ r' ∈ t.replacements room sorted, r'.pduId = p
        · obtain ⟨r', hr', rfl⟩ := hp
          rw [hw.stream r' hr', Option.some.injEq] at hrow
          rw [replacement_eq hsorted hr' hr hrow]
        · -- a row that stayed is not in the room
          rw [hw.streamElse p fun r' hr' heq => hp ⟨r', hr', heq⟩] at hrow
          split at hrow
          · cases hrow
          · rename_i hroom
            rw [h.inverse, hold] at hrow
            exact absurd (congrArg PduId.shortroomid (Option.some.inj hrow)).symm hroom
      · intro hp
        rw [← Option.some.inj hp]
        exact hw.stream r hr
    · rw [hw.pduidElse id fun r hr heq => hid ⟨r, hr, heq⟩, ← h.inverse]
      by_cases hp : ∃ r ∈ t.replacements room sorted, r.pduId = p
      · obtain ⟨r, hr, rfl⟩ := hp
        rw [hw.stream r hr, Option.some.injEq]
        refine ⟨fun heq => absurd ⟨r, hr, heq⟩ hid, fun hrow => ?_⟩
        have hroom := (mem_replacements hr).1
        refine absurd ((h.mem_sorted hsorted id).mpr ⟨r.pduId.shorteventid, ?_⟩) hid
        rw [← hroom]
        exact (h.inverse _ _).mp hrow
      · rw [hw.streamElse p fun r hr heq => hp ⟨r, hr, heq⟩]
        split
        · rename_i hroom
          refine ⟨nofun, fun hrow => ?_⟩
          refine absurd ((h.mem_sorted hsorted id).mpr ⟨p.shorteventid, ?_⟩) hid
          rw [← hroom]
          exact (h.inverse _ _).mp hrow
        · rfl
  · rw [hw.pdus]
    by_cases hid : ∃ r ∈ t.replacements room sorted, r.eventId = id
    · obtain ⟨count, hold⟩ := (h.mem_sorted hsorted id).mp hid
      obtain ⟨r, hr, rfl⟩ := hid
      rw [hw.pduid r hr, Option.some.injEq] at hp
      obtain ⟨hjson, m, hm, hplaces⟩ := h.rows r.eventId _ hold
      obtain ⟨hroom, hcount⟩ := mem_replacements hr
      rw [hw.metadata r hr, hm, ← hp]
      refine ⟨hjson, _, rfl, hplaces.timeline, hplaces.room.trans hroom.symm, fun c hc => ?_, fun _ => nofun⟩
      rw [← Option.some.inj hc]
      omega
    · have hother := fun r hr heq => hid ⟨r, hr, heq⟩
      rw [hw.pduidElse id hother] at hp
      rw [hw.metadataElse id hother]
      exact h.rows id p hp
  · by_cases hid : ∃ r ∈ t.replacements room sorted, r.eventId = id
    · obtain ⟨r, hr, rfl⟩ := hid
      rw [hw.pduid r hr] at hp
      cases hp
    · have hother := fun r hr heq => hid ⟨r, hr, heq⟩
      rw [hw.pduidElse id hother] at hp
      rw [hw.metadataElse id hother] at hm
      exact h.unplaced id m hp hm

/-! ## Runs -/

theorem step {a : TimelineAction} {t' : Tables} (h : Placed t) (hok : Tables.FreePositions a t)
    (hs : Tables.step a t = some t') :
    Placed t' := by
  cases a with
  | insert x =>
    cases hs
    exact h.insert hok.1 hok.2
  | addPduOutlier id room json decoded =>
    cases hs
    exact h.addPduOutlier id room json decoded
  | reindexTopo id depth =>
    cases hs
    split
    · split
      · exact h.reindexTopo _ id depth
      · exact h
    · exact h
  | replacePdu id json decoded =>
    obtain ⟨p, hp, hs⟩ := Option.bind_eq_some_iff.mp hs
    exact h.replacePdu ((h.getPduId_eq id).symm.trans hp) hs
  | reorderTimeline room sorted =>
    simp only [Tables.step] at hs
    split at hs
    · rename_i hsorted
      cases hs
      rcases reorderTimeline_rewritten h.positions hsorted with hsame | hw
      · rw [hsame]
        exact h
      · exact h.rewritten hsorted hw
    · cases hs
  | removeFromTimeline id =>
    cases hs
    exact h.removeFromTimeline id
  | removeTimelinePointers id =>
    cases hs
    exact h.removeTimelinePointers id

theorem empty : Placed Tables.empty := by
  refine ⟨?_, ?_, ?_⟩ <;> simp [Tables.empty]

end Placed

end Congruent.TimelineData
