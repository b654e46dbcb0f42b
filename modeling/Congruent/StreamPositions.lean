import Congruent.TimelineData

/-!
# Stream positions

Inserts that are queued into batches: each reads the rows of its event when it is queued,
and its writes follow when the batch is applied.
-/

namespace Congruent.TimelineData

structure Queued where
  insert : Insert
  seen : Seen

structure Batches where
  tables : Tables
  batches : List (List Queued)
  used : List PduId
  /-- The events of the inserts that are applied. -/
  inserted : List Pdu

namespace Batches

inductive Action where
  | begin
  /-- `append_pdu_batch` and `prepend_backfill_pdu_batch`, or through `force_insert_pdu_batch`. -/
  | insert (batch : Nat) (forced : Bool) (x : Insert)
  | apply (batch : Nat)

def init : Batches := ⟨.empty, [], [], []⟩

/-- `force_insert_pdu_batch` refuses an event that is in the timeline. -/
def refuses (s : Batches) (forced : Bool) (x : Insert) : Bool :=
  forced && s.tables.nonOutlierPduExists x.pdu.eventId

def applyBatch (t : Tables) (batch : List Queued) : Tables :=
  batch.foldl (fun t q => t.insertRows q.insert q.seen) t

def step : Action → Batches → Option Batches
  | .begin, s => some { s with batches := s.batches ++ [[]] }
  | .insert i forced x, s =>
    s.batches[i]?.bind fun batch =>
      if s.refuses forced x then some s
      else some { s with
        batches := s.batches.set i (batch ++ [⟨x, s.tables.see x⟩])
        used := x.pduId :: s.used }
  | .apply i, s =>
    s.batches[i]?.bind fun batch =>
      some { s with
        tables := applyBatch s.tables batch
        batches := s.batches.set i []
        inserted := batch.foldl (fun inserted q => q.insert.pdu :: inserted) s.inserted }

def Fresh (s : Batches) (x : Insert) : Prop :=
  x.pduId ∉ s.used ∧ (x.backfill = false → 0 < x.pduId.shorteventid)

def FreshCounts : Action → Batches → Prop
  | .insert _ forced x, s => s.refuses forced x = true ∨ s.Fresh x
  | .begin, _ | .apply _, _ => True

/-- Positions are fresh, and no event is inserted while an insert of it is in a batch
that is not applied. -/
def Once : Action → Batches → Prop
  | .insert _ forced x, s => s.refuses forced x = true ∨
      s.Fresh x ∧ ∀ batch ∈ s.batches, ∀ q ∈ batch, q.insert.pdu.eventId ≠ x.pdu.eventId
  | .begin, _ | .apply _, _ => True

instance (s : Batches) (x : Insert) : Decidable (s.Fresh x) := inferInstanceAs (Decidable (_ ∧ _))

instance : ∀ (a : Action) (s : Batches), Decidable (FreshCounts a s)
  | .insert _ forced x, s => inferInstanceAs (Decidable (s.refuses forced x = true ∨ s.Fresh x))
  | .begin, _ | .apply _, _ => .isTrue trivial

instance : ∀ (a : Action) (s : Batches), Decidable (Once a s)
  | .insert _ forced x, s => inferInstanceAs (Decidable (s.refuses forced x = true ∨
      s.Fresh x ∧ ∀ batch ∈ s.batches, ∀ q ∈ batch, q.insert.pdu.eventId ≠ x.pdu.eventId))
  | .begin, _ | .apply _, _ => .isTrue trivial

end Batches

/-! ## One insert -/

/-- The two tables of positions are inverse to each other, and the metadata agree. -/
structure Positions (t : Tables) : Prop where
  inverse : ∀ p id, t.roomPducountEventid.lookup p = some id ↔ t.eventidPduid.lookup id = some p
  fast : ∀ id, t.getPduId id = t.eventidPduid.lookup id

structure Pending (t : Tables) (queue : List Queued) : Prop where
  events : (queue.map fun q => q.insert.pdu.eventId).Nodup
  positions : (queue.map fun q => q.insert.pduId).Nodup
  seen : ∀ q ∈ queue, q.seen.pduId = t.eventidPduid.lookup q.insert.pdu.eventId
  free : ∀ q ∈ queue, t.roomPducountEventid.lookup q.insert.pduId = none
  counts : ∀ q ∈ queue, q.insert.backfill = false → 0 < q.insert.pduId.shorteventid

theorem Pending.perm {t : Tables} {queue queue' : List Queued} (h : Pending t queue) (hp : queue.Perm queue') :
    Pending t queue' where
  events := (hp.map _).nodup_iff.mp h.events
  positions := (hp.map _).nodup_iff.mp h.positions
  seen q hq := h.seen q (hp.mem_iff.mpr hq)
  free q hq := h.free q (hp.mem_iff.mpr hq)
  counts q hq := h.counts q (hp.mem_iff.mpr hq)

section
variable {t : Tables} {x : Insert} {seen : Seen}

theorem getPduId_congr {t t' : Tables} {id : EventId}
    (hmeta : t'.eventidMetadata.lookup id = t.eventidMetadata.lookup id)
    (hpduid : t'.eventidPduid.lookup id = t.eventidPduid.lookup id) : t'.getPduId id = t.getPduId id := by
  unfold Tables.getPduId
  rw [hmeta, hpduid]

theorem isSome_getPduId_insertRows (id : EventId) :
    ((t.insertRows x seen).getPduId id).isSome ↔ id = x.pdu.eventId ∨ (t.getPduId id).isSome := by
  by_cases hid : id = x.pdu.eventId
  · refine ⟨fun _ => .inl hid, fun _ => ?_⟩
    unfold Tables.getPduId
    rw [hid, Tables.lookup_insertRows_metadata, if_pos rfl, Tables.lookup_insertRows_pduid, if_pos rfl]
    cases hc : x.metadata.pduCount <;> simp [hc]
  · have hsame : (t.insertRows x seen).getPduId id = t.getPduId id := by
      apply getPduId_congr
      · rw [Tables.lookup_insertRows_metadata, if_neg hid]
      · rw [Tables.lookup_insertRows_pduid, if_neg hid]
    rw [hsame]
    simp [hid]

theorem getPduId_insertRows (hcount : x.backfill = false → 0 < x.pduId.shorteventid) :
    (t.insertRows x seen).getPduId x.pdu.eventId = some x.pduId := by
  unfold Tables.getPduId
  rw [Tables.lookup_insertRows_metadata, if_pos rfl, Tables.lookup_insertRows_pduid, if_pos rfl]
  cases hc : x.metadata.pduCount with
  | none => simp [hc]
  | some c =>
    simp only [Option.bind_some, hc, Option.map_some]
    exact congrArg some (PduId.ofCount_fromUnsigned (Insert.metadata_pduCount hcount hc))

theorem Positions.insertRows (h : Positions t) (hseen : seen.pduId = t.eventidPduid.lookup x.pdu.eventId)
    (hfree : t.roomPducountEventid.lookup x.pduId = none)
    (hcount : x.backfill = false → 0 < x.pduId.shorteventid) : Positions (t.insertRows x seen) where
  inverse p id := by
    rw [Tables.lookup_insertRows_stream, Tables.lookup_insertRows_pduid, hseen]
    by_cases hp : p = x.pduId
    · subst hp
      rw [if_pos rfl]
      by_cases hid : id = x.pdu.eventId
      · simp [hid]
      · -- no other event is at the new position
        rw [if_neg hid, ← h.inverse, hfree]
        simp [Ne.symm hid]
    · rw [if_neg hp]
      by_cases hid : id = x.pdu.eventId
      · rw [if_pos hid, hid]
        refine ⟨fun hold => ?_, fun hnew => absurd (Option.some.inj hnew).symm hp⟩
        split at hold
        · cases hold
        · rename_i hne
          exact absurd ((h.inverse p _).mp hold) hne
      · rw [if_neg hid]
        split
        · rename_i hold
          -- the row that goes is not of this event
          rw [← h.inverse, (h.inverse p _).mpr hold]
          simp [Ne.symm hid]
        · exact h.inverse p id
  fast id := by
    by_cases hid : id = x.pdu.eventId
    · rw [hid, getPduId_insertRows hcount, Tables.lookup_insertRows_pduid, if_pos rfl]
    · have hpduid : (t.insertRows x seen).eventidPduid.lookup id = t.eventidPduid.lookup id := by
        rw [Tables.lookup_insertRows_pduid, if_neg hid]
      rw [hpduid, ← h.fast]
      apply getPduId_congr _ hpduid
      rw [Tables.lookup_insertRows_metadata, if_neg hid]

theorem Pending.cons {queue : List Queued} (h : Pending t queue)
    (hevent : ∀ q ∈ queue, q.insert.pdu.eventId ≠ x.pdu.eventId) (hposition : ∀ q ∈ queue, q.insert.pduId ≠ x.pduId)
    (hfree : t.roomPducountEventid.lookup x.pduId = none)
    (hcount : x.backfill = false → 0 < x.pduId.shorteventid) : Pending t (⟨x, t.see x⟩ :: queue) := by
  refine ⟨?_, ?_, fun q hq => ?_, fun q hq => ?_, fun q hq => ?_⟩
  · refine List.nodup_cons.mpr ⟨fun hmem => ?_, h.events⟩
    obtain ⟨q, hq, heq⟩ := List.mem_map.mp hmem
    exact hevent q hq heq
  · refine List.nodup_cons.mpr ⟨fun hmem => ?_, h.positions⟩
    obtain ⟨q, hq, heq⟩ := List.mem_map.mp hmem
    exact hposition q hq heq
  · rcases List.mem_cons.mp hq with rfl | hq
    · rfl
    · exact h.seen q hq
  · rcases List.mem_cons.mp hq with rfl | hq
    · exact hfree
    · exact h.free q hq
  · rcases List.mem_cons.mp hq with rfl | hq
    · exact hcount
    · exact h.counts q hq

theorem Pending.insertRows {q : Queued} {rest : List Queued} (h : Pending t (q :: rest)) :
    Pending (t.insertRows q.insert q.seen) rest := by
  obtain ⟨hevent, hevents⟩ := List.nodup_cons.mp h.events
  obtain ⟨hposition, hpositions⟩ := List.nodup_cons.mp h.positions
  refine ⟨hevents, hpositions, fun q' hq' => ?_, fun q' hq' => ?_, fun q' hq' => ?_⟩
  · rw [Tables.lookup_insertRows_pduid, if_neg]
    · exact h.seen q' (List.mem_cons_of_mem q hq')
    · exact fun heq => hevent (List.mem_map.mpr ⟨q', hq', heq⟩)
  · rw [Tables.lookup_insertRows_stream, if_neg]
    · split
      · rfl
      · exact h.free q' (List.mem_cons_of_mem q hq')
    · exact fun heq => hposition (List.mem_map.mpr ⟨q', hq', heq⟩)
  · exact h.counts q' (List.mem_cons_of_mem q hq')

theorem applyBatch_positions {batch rest : List Queued} (h : Positions t) (hp : Pending t (batch ++ rest)) :
    Positions (Batches.applyBatch t batch) ∧ Pending (Batches.applyBatch t batch) rest := by
  induction batch generalizing t with
  | nil => exact ⟨h, hp⟩
  | cons q batch ih =>
    have hq : q ∈ q :: batch ++ rest := List.mem_cons_self
    exact ih (h.insertRows (hp.seen q hq) (hp.free q hq) (hp.counts q hq)) hp.insertRows

theorem applyBatch_used {batch : List Queued} {p : PduId}
    (h : (Batches.applyBatch t batch).roomPducountEventid.lookup p ≠ none) :
    t.roomPducountEventid.lookup p ≠ none ∨ ∃ q ∈ batch, q.insert.pduId = p := by
  induction batch generalizing t with
  | nil => exact .inl h
  | cons q batch ih =>
    rcases ih h with hrow | ⟨q', hq', heq⟩
    · rw [Tables.lookup_insertRows_stream] at hrow
      split at hrow
      · rename_i hp
        exact .inr ⟨q, List.mem_cons_self, hp.symm⟩
      · split at hrow
        · exact absurd rfl hrow
        · exact .inl hrow
    · exact .inr ⟨q', List.mem_cons_of_mem q hq', heq⟩

end

/-! ## Runs -/

theorem flatten_set_perm {α : Type} {l : List (List α)} {i : Nat} {a b : List α} (h : l[i]? = some a) :
    (a ++ (l.set i b).flatten).Perm (b ++ l.flatten) := by
  induction l generalizing i with
  | nil => simp at h
  | cons c l ih =>
    cases i with
    | zero =>
      rw [List.getElem?_cons_zero, Option.some.injEq] at h
      subst h
      simp only [List.set_cons_zero, List.flatten_cons, ← List.append_assoc]
      exact List.perm_append_comm.append_right _
    | succ i =>
      rw [List.getElem?_cons_succ] at h
      have hswap : ∀ a m : List α, (a ++ (c ++ m)).Perm (c ++ (a ++ m)) := by
        intro a m
        rw [← List.append_assoc, ← List.append_assoc]
        exact List.perm_append_comm.append_right m
      simp only [List.set_cons_succ, List.flatten_cons]
      exact ((hswap a _).trans ((ih h).append_left c)).trans (hswap b _).symm

namespace Batches

variable {s s' : Batches}

structure Valid (s : Batches) : Prop where
  positions : Positions s.tables
  pending : Pending s.tables s.batches.flatten
  used : ∀ p, s.tables.roomPducountEventid.lookup p ≠ none → p ∈ s.used
  queued : ∀ q ∈ s.batches.flatten, q.insert.pduId ∈ s.used

theorem insert_perm {i : Nat} {batch : List Queued} (hi : s.batches[i]? = some batch) (q : Queued) :
    (q :: s.batches.flatten).Perm (s.batches.set i (batch ++ [q])).flatten := by
  have hset := flatten_set_perm (b := batch ++ [q]) hi
  rw [List.append_assoc, List.singleton_append] at hset
  exact ((List.perm_append_left_iff batch).mp hset).symm

theorem apply_perm {i : Nat} {batch : List Queued} (hi : s.batches[i]? = some batch) :
    s.batches.flatten.Perm (batch ++ (s.batches.set i []).flatten) := (flatten_set_perm (b := []) hi).symm

theorem Valid.insert (h : s.Valid) {i : Nat} {batch : List Queued} (hi : s.batches[i]? = some batch) {x : Insert}
    (hfresh : s.Fresh x) (honce : ∀ batch ∈ s.batches, ∀ q ∈ batch, q.insert.pdu.eventId ≠ x.pdu.eventId) :
    Valid { s with
      batches := s.batches.set i (batch ++ [⟨x, s.tables.see x⟩])
      used := x.pduId :: s.used } := by
  have hperm := insert_perm hi ⟨x, s.tables.see x⟩
  have hfree : s.tables.roomPducountEventid.lookup x.pduId = none := by
    by_contra hrow
    exact hfresh.1 (h.used _ hrow)
  refine ⟨h.positions, (h.pending.cons ?_ ?_ hfree hfresh.2).perm hperm, fun p hp => ?_,
    fun q hq => ?_⟩
  · intro q hq
    obtain ⟨batch, hbatch, hq⟩ := List.mem_flatten.mp hq
    exact honce batch hbatch q hq
  · exact fun q hq heq => hfresh.1 (heq ▸ h.queued q hq)
  · exact List.mem_cons_of_mem _ (h.used p hp)
  · rcases List.mem_cons.mp (hperm.mem_iff.mpr hq) with rfl | hq
    · exact List.mem_cons_self
    · exact List.mem_cons_of_mem _ (h.queued q hq)

theorem Valid.apply (h : s.Valid) {i : Nat} {batch : List Queued} (hi : s.batches[i]? = some batch)
    (inserted : List Pdu) :
    Valid ⟨applyBatch s.tables batch, s.batches.set i [], s.used, inserted⟩ := by
  have hperm := apply_perm hi
  obtain ⟨hpositions, hpending⟩ := applyBatch_positions h.positions (h.pending.perm hperm)
  refine ⟨hpositions, hpending, fun p hp => ?_, fun q hq => ?_⟩
  · rcases applyBatch_used hp with hrow | ⟨q, hq, rfl⟩
    · exact h.used p hrow
    · exact h.queued q (hperm.mem_iff.mpr (List.mem_append_left _ hq))
  · exact h.queued q (hperm.mem_iff.mpr (List.mem_append_right _ hq))

theorem step_valid {a : Action} (h : s.Valid) (hok : Once a s) (hs : step a s = some s') : s'.Valid := by
  cases a with
  | begin =>
    cases hs
    have hsame : (s.batches ++ [[]]).flatten = s.batches.flatten := by simp
    exact ⟨h.positions, hsame ▸ h.pending, h.used, hsame ▸ h.queued⟩
  | insert i forced x =>
    obtain ⟨batch, hi, hs⟩ := Option.bind_eq_some_iff.mp hs
    by_cases hrefuse : s.refuses forced x = true
    · rw [if_pos hrefuse] at hs
      cases hs
      exact h
    · rw [if_neg hrefuse] at hs
      cases hs
      obtain ⟨hfresh, honce⟩ := hok.resolve_left hrefuse
      exact h.insert hi hfresh honce
  | apply i =>
    obtain ⟨batch, hi, hs⟩ := Option.bind_eq_some_iff.mp hs
    cases hs
    exact h.apply hi _

theorem init_valid : init.Valid where
  positions := ⟨fun p id => by simp [init, Tables.empty], fun id => by simp [init, Tables.empty, Tables.getPduId]⟩
  pending := ⟨List.nodup_nil, List.nodup_nil, by simp [init], by simp [init], by simp [init]⟩
  used p h := absurd (AList.lookup_empty p) h
  queued _ h := by simp [init] at h

/-- As long as no event is inserted while an insert of it is in a batch that is not applied,
every event has one position: the two tables are inverse to each other, and both ways to
look a position up give the same. -/
theorem one_stream_position (hrun : Reaches step Once init s) :
    (∀ p id, s.tables.roomPducountEventid.lookup p = some id ↔ s.tables.eventidPduid.lookup id = some p) ∧
      ∀ id, s.tables.getPduId id = s.tables.eventidPduid.lookup id := by
  have h : s.Valid := Reaches.invariant init_valid (fun _ _ _ h hok hs => step_valid h hok hs) hrun
  exact ⟨h.positions.inverse, h.positions.fast⟩

/-- An event that is backfilled after it was forced in moves to its new position. -/
theorem one_stream_position_moved : ∃ s,
    runWhile step Once [.begin, .insert 0 true (messageAt 5 false "$e" [] 3), .apply 0,
      .insert 0 false (messageAt (-6) true "$e" [] 3), .apply 0] init = some s ∧
      s.tables.roomPducountEventid.lookup ⟨1, 5⟩ ≠ some "$e" ∧ s.tables.getPduId "$e" = some ⟨1, -6⟩ := by
  have hsome : (runWhile step Once [.begin, .insert 0 true (messageAt 5 false "$e" [] 3), .apply 0,
      .insert 0 false (messageAt (-6) true "$e" [] 3), .apply 0] init).map
        (fun s => s.tables.eventidPduid.lookup "$e") =
      some (some ⟨1, -6⟩) := by
    decide
  obtain ⟨s, hs, hpduid⟩ := Option.map_eq_some_iff.mp hsome
  obtain ⟨hinverse, hfast⟩ := one_stream_position (.of_runWhile _ .init hs)
  refine ⟨s, hs, fun hold => ?_, (hfast "$e").trans hpduid⟩
  have hpduid' := (hinverse ⟨1, 5⟩ "$e").mp hold
  rw [hpduid] at hpduid'
  exact absurd hpduid' (by decide)

/-- Two calls force one event into the same batch: when it is applied, a stream row names
an event that is elsewhere. -/
theorem two_stream_positions : ∃ s, Reaches step FreshCounts init s ∧ s.batches.flatten = [] ∧
    ∃ p id, s.tables.roomPducountEventid.lookup p = some id ∧ s.tables.eventidPduid.lookup id ≠ some p := by
  have hsome : (runWhile step FreshCounts [.begin, .insert 0 true (messageAt 5 false "$e" [] 3),
      .insert 0 true (messageAt 6 false "$e" [] 3), .apply 0] init).map
        (fun s => (s.batches.flatten.length, s.tables.roomPducountEventid.lookup ⟨1, 5⟩,
          s.tables.eventidPduid.lookup "$e")) =
      some (0, some "$e", some ⟨1, 6⟩) := by
    decide
  obtain ⟨s, hs, heq⟩ := Option.map_eq_some_iff.mp hsome
  simp only [Prod.mk.injEq] at heq
  obtain ⟨hbatches, hrow, hpduid⟩ := heq
  refine ⟨s, .of_runWhile _ .init hs, List.length_eq_zero_iff.mp hbatches, ⟨1, 5⟩, "$e", hrow, ?_⟩
  rw [hpduid]
  decide

end Batches

end Congruent.TimelineData
