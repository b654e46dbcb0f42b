import Congruent.StreamPositions

/-!
# The two tables of missing events (`timeline/backward_extremities.rs`)

What the inserts into a room record about previous events that have no position. Both
tables hold the same facts as long as an event is always missed at one depth.
-/

namespace Congruent.TimelineData

/-! ## One insert -/

namespace Tables

section
variable {t : Tables} {x : Insert} {seen : Seen}

theorem lookup_foldl_recordMissing (room depth : Nat) (ids : List EventId) (key : Nat × EventId) :
    (ids.foldl (recordMissing room depth) t).roomidMissingeventidDepth.lookup key =
      if key.1 = room ∧ key.2 ∈ ids then some depth else t.roomidMissingeventidDepth.lookup key := by
  induction ids generalizing t with
  | nil => simp
  | cons id ids ih =>
    rw [List.foldl_cons, ih]
    by_cases hlater : key.1 = room ∧ key.2 ∈ ids
    · rw [if_pos hlater, if_pos ⟨hlater.1, List.mem_cons_of_mem id hlater.2⟩]
    · rw [if_neg hlater]
      unfold recordMissing
      by_cases hkey : key = (room, id)
      · subst hkey
        rw [AList.lookup_insert, if_pos ⟨rfl, List.mem_cons_self⟩]
      · rw [AList.lookup_insert_ne hkey, if_neg]
        rintro ⟨hroom, hmem⟩
        rcases List.mem_cons.mp hmem with hid | hmem
        · exact hkey (Prod.ext hroom hid)
        · exact hlater ⟨hroom, hmem⟩

theorem isSome_foldl_recordMissing (room depth : Nat) (ids : List EventId) (key : Nat × Nat × EventId) :
    ((ids.foldl (recordMissing room depth) t).roomidDepthMissingeventid.lookup key).isSome ↔
      (key.1 = room ∧ key.2.1 = depth ∧ key.2.2 ∈ ids) ∨ (t.roomidDepthMissingeventid.lookup key).isSome := by
  induction ids generalizing t with
  | nil => simp
  | cons id ids ih =>
    rw [List.foldl_cons, ih]
    unfold recordMissing
    by_cases hkey : key = (room, depth, id)
    · subst hkey
      simp
    · rw [AList.lookup_insert_ne hkey, List.mem_cons]
      refine ⟨?_, ?_⟩
      · rintro (⟨hroom, hdepth, hmem⟩ | hold)
        · exact .inl ⟨hroom, hdepth, .inr hmem⟩
        · exact .inr hold
      · rintro (⟨hroom, hdepth, hid | hmem⟩ | hold)
        · exact absurd (Prod.ext hroom (Prod.ext hdepth hid)) hkey
        · exact .inl ⟨hroom, hdepth, hmem⟩
        · exact .inr hold

theorem removeMoved_missing :
    (t.removeMoved x seen).roomidMissingeventidDepth = t.roomidMissingeventidDepth ∧
      (t.removeMoved x seen).roomidDepthMissingeventid = t.roomidDepthMissingeventid := by
  unfold removeMoved
  split
  · split <;> exact ⟨rfl, rfl⟩
  · exact ⟨rfl, rfl⟩

theorem lookup_insertRows_depth (id : EventId) :
    (t.insertRows x seen).roomidMissingeventidDepth.lookup (x.pduId.shortroomid, id) =
      if id ∈ seen.missing then some x.pdu.depth
      else if id = x.pdu.eventId ∧ seen.missingDepth.isSome then none
      else t.roomidMissingeventidDepth.lookup (x.pduId.shortroomid, id) := by
  unfold insertRows recordBackwardExtremities
  rw [lookup_foldl_recordMissing]
  by_cases hmissing : id ∈ seen.missing
  · rw [if_pos ⟨rfl, hmissing⟩, if_pos hmissing]
  · rw [if_neg fun h => hmissing h.2, if_neg hmissing]
    cases hdepth : seen.missingDepth with
    | none =>
      simp only [resolveMissing, Option.isSome_none, Bool.false_eq_true, and_false, if_false]
      rw [removeMoved_missing.1]
    | some depth =>
      simp only [resolveMissing, Option.isSome_some, and_true]
      rw [AList.lookup_erase_eq, removeMoved_missing.1]
      by_cases hid : id = x.pdu.eventId
      · rw [if_pos (congrArg (Prod.mk x.pduId.shortroomid) hid), if_pos hid]
      · rw [if_neg fun h => hid (Prod.mk.inj h).2, if_neg hid]

theorem isSome_insertRows_key (depth : Nat) (id : EventId) :
    ((t.insertRows x seen).roomidDepthMissingeventid.lookup (x.pduId.shortroomid, depth, id)).isSome ↔
      (depth = x.pdu.depth ∧ id ∈ seen.missing) ∨
        (t.roomidDepthMissingeventid.lookup (x.pduId.shortroomid, depth, id)).isSome ∧
          ¬ (id = x.pdu.eventId ∧ seen.missingDepth = some depth) := by
  unfold insertRows recordBackwardExtremities
  rw [isSome_foldl_recordMissing]
  have hresolve : ∀ t : Tables,
      ((t.resolveMissing x.pduId.shortroomid x.pdu.eventId seen.missingDepth).roomidDepthMissingeventid.lookup
        (x.pduId.shortroomid, depth, id)).isSome ↔
      (t.roomidDepthMissingeventid.lookup (x.pduId.shortroomid, depth, id)).isSome ∧
        ¬ (id = x.pdu.eventId ∧ seen.missingDepth = some depth) := by
    intro t
    cases hdepth : seen.missingDepth with
    | none => simp [resolveMissing]
    | some old =>
      simp only [resolveMissing, AList.lookup_erase_eq, Option.some.injEq]
      by_cases hkey : id = x.pdu.eventId ∧ old = depth
      · obtain ⟨hid, hold⟩ := hkey
        simp [hid, hold]
      · rw [if_neg]
        · simp [hkey]
        · intro h
          obtain ⟨-, h⟩ := Prod.mk.inj h
          obtain ⟨hold, hid⟩ := Prod.mk.inj h
          exact hkey ⟨hid, hold.symm⟩
  rw [hresolve, removeMoved_missing.2]
  simp

end

end Tables

/-! ## What is recorded -/

structure Recorded (room : Nat) (t : Tables) (inserted : List Pdu) : Prop where
  agree : ∀ depth id, (t.roomidDepthMissingeventid.lookup (room, depth, id)).isSome ↔
    t.roomidMissingeventidDepth.lookup (room, id) = some depth
  cited : ∀ id, (t.roomidMissingeventidDepth.lookup (room, id)).isSome ↔
    (∃ ev ∈ inserted, id ∈ ev.prevEvents) ∧ ∀ ev ∈ inserted, ev.eventId ≠ id
  known : ∀ id, (t.getPduId id).isSome ↔ ∃ ev ∈ inserted, ev.eventId = id

/-- The queued inserts have seen what is missing, and miss no event that comes with them
nor any at two depths. -/
structure Waiting (room : Nat) (t : Tables) (queue : List Queued) : Prop where
  inRoom : ∀ q ∈ queue, q.insert.pduId.shortroomid = room
  seen : ∀ q ∈ queue, ∀ id, id ∈ q.seen.missing ↔ id ∈ q.insert.pdu.prevEvents ∧ t.getPduId id = none
  resolved : ∀ q ∈ queue, t.roomidMissingeventidDepth.lookup (room, q.insert.pdu.eventId) = none ∨
    t.roomidMissingeventidDepth.lookup (room, q.insert.pdu.eventId) = q.seen.missingDepth
  depths : ∀ q ∈ queue, ∀ id ∈ q.seen.missing, t.roomidMissingeventidDepth.lookup (room, id) = none ∨
    t.roomidMissingeventidDepth.lookup (room, id) = some q.insert.pdu.depth
  apart : ∀ q ∈ queue, ∀ q' ∈ queue, ∀ id ∈ q.seen.missing, id ≠ q'.insert.pdu.eventId ∧
    (id ∈ q'.seen.missing → q'.insert.pdu.depth = q.insert.pdu.depth)

theorem Waiting.subset {room : Nat} {t : Tables} {queue queue' : List Queued} (h : Waiting room t queue)
    (hsub : ∀ q ∈ queue', q ∈ queue) : Waiting room t queue' where
  inRoom q hq := h.inRoom q (hsub q hq)
  seen q hq := h.seen q (hsub q hq)
  resolved q hq := h.resolved q (hsub q hq)
  depths q hq := h.depths q (hsub q hq)
  apart q hq q' hq' := h.apart q (hsub q hq) q' (hsub q' hq')

section
variable {room : Nat} {t : Tables} {inserted : List Pdu} {q : Queued} {queue : List Queued}

theorem Waiting.lookup_depth (h : Waiting room t (q :: queue)) (id : EventId) :
    (t.insertRows q.insert q.seen).roomidMissingeventidDepth.lookup (room, id) =
      if id ∈ q.seen.missing then some q.insert.pdu.depth
      else if id = q.insert.pdu.eventId then none
      else t.roomidMissingeventidDepth.lookup (room, id) := by
  have hroom := h.inRoom q List.mem_cons_self
  rw [← hroom, Tables.lookup_insertRows_depth, hroom]
  by_cases hid : id = q.insert.pdu.eventId
  · -- a row that the insert has not seen is gone
    have hresolved := h.resolved q List.mem_cons_self
    cases hdepth : q.seen.missingDepth with
    | some depth => simp [hid]
    | none =>
      rw [hdepth, or_self, ← hid] at hresolved
      simp [hresolved]
  · simp [hid]

theorem Recorded.insertRows (h : Recorded room t inserted) (hq : Waiting room t (q :: queue)) :
    Recorded room (t.insertRows q.insert q.seen) (q.insert.pdu :: inserted) := by
  have hmem : q ∈ q :: queue := List.mem_cons_self
  refine ⟨fun depth id => ?_, fun id => ?_, fun id => ?_⟩
  · have hkey : ((t.insertRows q.insert q.seen).roomidDepthMissingeventid.lookup
        (q.insert.pduId.shortroomid, depth, id)).isSome ↔ _ := Tables.isSome_insertRows_key depth id
    rw [hq.inRoom q hmem] at hkey
    rw [hkey, hq.lookup_depth, h.agree]
    by_cases hmissing : id ∈ q.seen.missing
    · have hdepths := hq.depths q hmem id hmissing
      have hne := (hq.apart q hmem q hmem id hmissing).1
      rw [if_pos hmissing]
      constructor
      · rintro (⟨hdepth, -⟩ | ⟨hold, -⟩)
        · rw [hdepth]
        · rw [hold] at hdepths
          rcases hdepths with hnone | hsame
          · cases hnone
          · exact hsame.symm
      · intro hsame
        exact .inl ⟨(Option.some.inj hsame).symm, hmissing⟩
    · rw [if_neg hmissing]
      by_cases hid : id = q.insert.pdu.eventId
      · rw [if_pos hid]
        constructor
        · rintro (⟨-, hin⟩ | ⟨hold, hne⟩)
          · exact absurd hin hmissing
          · rcases hq.resolved q hmem with hnone | hsame
            · rw [← hid, hold] at hnone
              cases hnone
            · rw [← hid, hold] at hsame
              exact absurd ⟨hid, hsame.symm⟩ hne
        · exact nofun
      · rw [if_neg hid]
        simp [hmissing, hid]
  · rw [hq.lookup_depth]
    by_cases hmissing : id ∈ q.seen.missing
    · obtain ⟨hprev, hnone⟩ := (hq.seen q hmem id).mp hmissing
      have hne := (hq.apart q hmem q hmem id hmissing).1
      have hunknown : ∀ ev ∈ inserted, ev.eventId ≠ id := by
        intro ev hev heq
        have hsome := (h.known id).mpr ⟨ev, hev, heq⟩
        rw [hnone] at hsome
        cases hsome
      rw [if_pos hmissing]
      refine ⟨fun _ => ⟨⟨q.insert.pdu, List.mem_cons_self, hprev⟩, ?_⟩, fun _ => rfl⟩
      intro ev hev
      rcases List.mem_cons.mp hev with rfl | hev
      · exact Ne.symm hne
      · exact hunknown ev hev
    · rw [if_neg hmissing]
      by_cases hid : id = q.insert.pdu.eventId
      · rw [if_pos hid]
        refine ⟨nofun, fun hcited => ?_⟩
        exact absurd hid.symm (hcited.2 _ List.mem_cons_self)
      · rw [if_neg hid, h.cited]
        constructor
        · rintro ⟨⟨ev, hev, hprev⟩, hunknown⟩
          refine ⟨⟨ev, List.mem_cons_of_mem _ hev, hprev⟩, fun ev hev => ?_⟩
          rcases List.mem_cons.mp hev with rfl | hev
          · exact Ne.symm hid
          · exact hunknown ev hev
        · rintro ⟨⟨ev, hev, hprev⟩, hunknown⟩
          have hold : ∀ ev ∈ inserted, ev.eventId ≠ id := fun ev hev => hunknown ev (List.mem_cons_of_mem _ hev)
          rcases List.mem_cons.mp hev with rfl | hev
          · -- the insert saw a position of the event, so it was inserted
            have hknown : t.getPduId id ≠ none := fun hnone => hmissing ((hq.seen q hmem id).mpr ⟨hprev, hnone⟩)
            obtain ⟨ev, hev, heq⟩ := (h.known id).mp (Option.isSome_iff_ne_none.mpr hknown)
            exact absurd heq (hold ev hev)
          · exact ⟨⟨ev, hev, hprev⟩, hold⟩
  · rw [isSome_getPduId_insertRows, h.known, List.exists_mem_cons_iff]
    exact or_congr_left eq_comm

theorem Waiting.insertRows (h : Waiting room t (q :: queue)) : Waiting room
    (t.insertRows q.insert q.seen) queue := by
  have hmem : q ∈ q :: queue := List.mem_cons_self
  have hin : ∀ q' ∈ queue, q' ∈ q :: queue := fun q' hq' => List.mem_cons_of_mem q hq'
  refine ⟨fun q' hq' => h.inRoom q' (hin q' hq'), fun q' hq' id => ?_, fun q' hq' => ?_, fun q' hq' id hid => ?_,
    fun q' hq' q'' hq'' => h.apart q' (hin q' hq') q'' (hin q'' hq'')⟩
  · rw [h.seen q' (hin q' hq')]
    refine and_congr_right fun hprev => ?_
    rw [← Option.not_isSome_iff_eq_none, ← Option.not_isSome_iff_eq_none, isSome_getPduId_insertRows, not_or]
    refine ⟨fun hnone => ⟨fun heq => ?_, hnone⟩, fun hnone => hnone.2⟩
    have hmissing := (h.seen q' (hin q' hq') id).mpr ⟨hprev, Option.not_isSome_iff_eq_none.mp hnone⟩
    exact (h.apart q' (hin q' hq') q hmem id hmissing).1 heq
  · rw [h.lookup_depth, if_neg fun hmissing => (h.apart q hmem q' (hin q' hq') _ hmissing).1 rfl]
    split
    · exact .inl rfl
    · exact h.resolved q' (hin q' hq')
  · rw [h.lookup_depth]
    split
    · rename_i hmissing
      exact .inr (congrArg some ((h.apart q' (hin q' hq') q hmem id hid).2 hmissing))
    · split
      · exact .inl rfl
      · exact h.depths q' (hin q' hq') id hid

theorem Waiting.cons (h : Waiting room t queue) {x : Insert}
    (hroom : x.pduId.shortroomid = room)
    (hcites : ∀ id ∈ x.pdu.prevEvents, t.getPduId id = none → id ≠ x.pdu.eventId ∧
      (t.roomidMissingeventidDepth.lookup (room, id) = none ∨
        t.roomidMissingeventidDepth.lookup (room, id) = some x.pdu.depth) ∧
      ∀ q ∈ queue, id ≠ q.insert.pdu.eventId ∧
        (id ∈ q.insert.pdu.prevEvents → q.insert.pdu.depth = x.pdu.depth))
    (hcited : t.getPduId x.pdu.eventId = none → ∀ q ∈ queue, x.pdu.eventId ∉ q.insert.pdu.prevEvents) :
    Waiting room t (⟨x, t.see x⟩ :: queue) := by
  have hsee : ∀ id, id ∈ (t.see x).missing ↔ id ∈ x.pdu.prevEvents ∧ t.getPduId id = none := by
    intro id
    simp [Tables.see, missingPrevEvents]
  refine ⟨fun q hq => ?_, fun q hq => ?_, fun q hq => ?_, fun q hq id hid => ?_, fun q hq q' hq' id hid => ?_⟩
  · rcases List.mem_cons.mp hq with rfl | hq
    · exact hroom
    · exact h.inRoom q hq
  · rcases List.mem_cons.mp hq with rfl | hq
    · exact hsee
    · exact h.seen q hq
  · rcases List.mem_cons.mp hq with rfl | hq
    · exact .inr (hroom ▸ rfl)
    · exact h.resolved q hq
  · rcases List.mem_cons.mp hq with rfl | hq
    · obtain ⟨hprev, hnone⟩ := (hsee id).mp hid
      exact (hcites id hprev hnone).2.1
    · exact h.depths q hq id hid
  · rcases List.mem_cons.mp hq with rfl | hq
    · obtain ⟨hprev, hnone⟩ := (hsee id).mp hid
      rcases List.mem_cons.mp hq' with rfl | hq'
      · exact ⟨(hcites id hprev hnone).1, fun _ => rfl⟩
      · obtain ⟨hne, hdepth⟩ := (hcites id hprev hnone).2.2 q' hq'
        exact ⟨hne, fun hmissing => hdepth ((h.seen q' hq' id).mp hmissing).1⟩
    · obtain ⟨hprev, hnone⟩ := (h.seen q hq id).mp hid
      rcases List.mem_cons.mp hq' with rfl | hq'
      · refine ⟨fun heq => hcited (heq ▸ hnone) q hq (heq ▸ hprev), fun hmissing => ?_⟩
        obtain ⟨hprev', -⟩ := (hsee id).mp hmissing
        exact (((hcites id hprev' hnone).2.2 q hq).2 hprev).symm
      · exact h.apart q hq q' hq' id hid

theorem applyBatch_recorded {batch rest : List Queued} (h : Recorded room t inserted)
    (hq : Waiting room t (batch ++ rest)) :
    Recorded room (Batches.applyBatch t batch)
      (batch.foldl (fun inserted q => q.insert.pdu :: inserted) inserted) ∧
      Waiting room (Batches.applyBatch t batch) rest := by
  induction batch generalizing t inserted with
  | nil => exact ⟨h, hq⟩
  | cons q batch ih => exact ih (h.insertRows hq) hq.insertRows

end

/-! ## Runs -/

namespace Batches

def queue (s : Batches) : List Queued := s.batches.flatten

/-- What an insert into the room may cite: of the previous events that have no position,
neither itself nor one that a queued insert brings, and none that is recorded, or that a
queued insert cites, at another depth. Nor may a queued insert cite it. -/
def CitesApart (room : Nat) (s : Batches) (x : Insert) : Prop :=
  x.pduId.shortroomid = room ∧
    (∀ id ∈ x.pdu.prevEvents, s.tables.getPduId id = none → id ≠ x.pdu.eventId ∧
      (s.tables.roomidMissingeventidDepth.lookup (room, id) = none ∨
        s.tables.roomidMissingeventidDepth.lookup (room, id) = some x.pdu.depth) ∧
      ∀ q ∈ s.queue, id ≠ q.insert.pdu.eventId ∧
        (id ∈ q.insert.pdu.prevEvents → q.insert.pdu.depth = x.pdu.depth)) ∧
    (s.tables.getPduId x.pdu.eventId = none → ∀ q ∈ s.queue, x.pdu.eventId ∉ q.insert.pdu.prevEvents)

def OneDepth (room : Nat) : Action → Batches → Prop
  | .insert _ forced x, s => s.refuses forced x = true ∨ s.CitesApart room x
  | .begin, _ | .apply _, _ => True

def IntoRoom (room : Nat) : Action → Batches → Prop
  | .insert _ _ x, _ => x.pduId.shortroomid = room
  | .begin, _ | .apply _, _ => True

instance (room : Nat) (s : Batches) (x : Insert) : Decidable (s.CitesApart room x) :=
  inferInstanceAs (Decidable (_ ∧ _ ∧ _))

instance (room : Nat) : ∀ (a : Action) (s : Batches), Decidable (OneDepth room a s)
  | .insert _ forced x, s => inferInstanceAs (Decidable (s.refuses forced x = true ∨ s.CitesApart room x))
  | .begin, _ | .apply _, _ => .isTrue trivial

instance (room : Nat) : ∀ (a : Action) (s : Batches), Decidable (IntoRoom room a s)
  | .insert _ _ x, _ => inferInstanceAs (Decidable (x.pduId.shortroomid = room))
  | .begin, _ | .apply _, _ => .isTrue trivial

variable {room : Nat} {s s' : Batches}

theorem step_recorded {a : Action} (h : Recorded room s.tables s.inserted ∧ Waiting room s.tables s.queue)
    (hok : OneDepth room a s) (hs : step a s = some s') :
    Recorded room s'.tables s'.inserted ∧ Waiting room s'.tables s'.queue := by
  obtain ⟨hrecorded, hwaiting⟩ := h
  cases a with
  | begin =>
    cases hs
    have hsame : (s.batches ++ [[]]).flatten = s.batches.flatten := by simp
    refine ⟨hrecorded, ?_⟩
    unfold queue at hwaiting ⊢
    exact hsame ▸ hwaiting
  | insert i forced x =>
    obtain ⟨batch, hi, hs⟩ := Option.bind_eq_some_iff.mp hs
    by_cases hrefuse : s.refuses forced x = true
    · rw [if_pos hrefuse] at hs
      cases hs
      exact ⟨hrecorded, hwaiting⟩
    · rw [if_neg hrefuse] at hs
      cases hs
      obtain ⟨hroom, hcites, hcited⟩ := hok.resolve_left hrefuse
      refine ⟨hrecorded, (hwaiting.cons hroom hcites hcited).subset fun q hq => ?_⟩
      exact (insert_perm hi ⟨x, s.tables.see x⟩).mem_iff.mpr hq
  | apply i =>
    obtain ⟨batch, hi, hs⟩ := Option.bind_eq_some_iff.mp hs
    cases hs
    exact applyBatch_recorded hrecorded (hwaiting.subset fun q hq => (apply_perm hi).mem_iff.mpr hq)

theorem init_recorded : Recorded room init.tables init.inserted ∧ Waiting room init.tables init.queue := by
  refine ⟨⟨?_, ?_, ?_⟩, ⟨?_, ?_, ?_, ?_, ?_⟩⟩ <;> simp [init, Tables.empty, Tables.getPduId, queue]

/-- As long as an event is missed at one depth, and not by inserts that wait while it is
inserted, the two tables agree, and hold just the events that inserted events cite and that
were not inserted themselves. -/
theorem missing_events_agree (hrun : Reaches step (OneDepth room) init s) :
    (∀ depth id, (s.tables.roomidDepthMissingeventid.lookup (room, depth, id)).isSome ↔
      s.tables.roomidMissingeventidDepth.lookup (room, id) = some depth) ∧
    ∀ id, (s.tables.roomidMissingeventidDepth.lookup (room, id)).isSome ↔
      (∃ ev ∈ s.inserted, id ∈ ev.prevEvents) ∧ ∀ ev ∈ s.inserted, ev.eventId ≠ id := by
  have h : Recorded room s.tables s.inserted ∧ Waiting room s.tables s.queue :=
    Reaches.invariant (P := fun s => Recorded room s.tables s.inserted ∧ Waiting room s.tables s.queue)
      init_recorded
      (fun _ _ _ h hok hs => step_recorded h hok hs) hrun
  exact ⟨h.1.agree, h.1.cited⟩

/-- Two children at one depth cite a missing parent, and one of them an event that is known. -/
theorem missing_events_agree_siblings : ∃ s,
    runWhile step (OneDepth 1) [.begin, .insert 0 false (messageAt 5 false "$a" ["$p"] 3), .apply 0,
      .insert 0 false (messageAt 6 false "$b" ["$p", "$a"] 3), .apply 0] init = some s ∧
      s.tables.roomidMissingeventidDepth.lookup (1, "$p") = some 3 ∧
      s.tables.roomidMissingeventidDepth.lookup (1, "$a") = none := by
  refine exists_of_map
    (fun s => (s.tables.roomidDepthMissingeventid.lookup (1, 3, "$p"), s.inserted.map (·.eventId)))
    (v := (some (), ["$b", "$a"])) (by decide) fun s hs heq => ?_
  obtain ⟨hkey, hinserted⟩ := Prod.mk.inj heq
  obtain ⟨hagree, hcited⟩ := missing_events_agree (.of_runWhile _ .init hs)
  refine ⟨(hagree 3 "$p").mp (by rw [hkey]; rfl), ?_⟩
  obtain ⟨ev, hev, hid⟩ := List.mem_map.mp (show "$a" ∈ s.inserted.map (·.eventId) by rw [hinserted]; decide)
  by_contra hsome
  exact ((hcited "$a").mp (Option.isSome_iff_ne_none.mpr hsome)).2 ev hev hid

/-- Two children cite a missing parent at different depths: a key of the first depth stays. -/
theorem missing_event_at_two_depths : ∃ s, Reaches step (IntoRoom 1) init s ∧ s.batches.flatten = [] ∧
    ∃ depth id, (s.tables.roomidDepthMissingeventid.lookup (1, depth, id)).isSome ∧
      s.tables.roomidMissingeventidDepth.lookup (1, id) ≠ some depth := by
  have hsome : (runWhile step (IntoRoom 1) [.begin, .insert 0 false (messageAt 5 false "$a" ["$p"] 3), .apply 0,
      .insert 0 false (messageAt 6 false "$b" ["$p"] 4), .apply 0] init).map
        (fun s => (s.batches.flatten.length, s.tables.roomidDepthMissingeventid.lookup (1, 3, "$p"),
          s.tables.roomidMissingeventidDepth.lookup (1, "$p"))) =
      some (0, some (), some 4) := by
    decide
  obtain ⟨s, hs, heq⟩ := Option.map_eq_some_iff.mp hsome
  simp only [Prod.mk.injEq] at heq
  obtain ⟨hbatches, hkey, hdepth⟩ := heq
  refine ⟨s, .of_runWhile _ .init hs, List.length_eq_zero_iff.mp hbatches, 3, "$p", by rw [hkey]; rfl, ?_⟩
  rw [hdepth]
  decide

end Batches

end Congruent.TimelineData
