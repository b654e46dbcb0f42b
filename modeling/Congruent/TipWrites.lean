import Congruent.Steps
import Mathlib.Data.Finset.Sort

/-!
# Writing the tips of a room (`set_forward_extremities`)

Candidates are admitted by what the stores say of them. The rows of a room are replaced in
one batch, or not at all.
-/

namespace Congruent.TipWrites

/-! ## The map of leaves -/

/-- The rows of the map, by their rooms. -/
abbrev PduLeaves := RoomId → Finset EventId

inductive LeafOp where
  | remove (room : RoomId) (id : EventId)
  | insert (room : RoomId) (id : EventId)

def LeafOp.apply (leaves : PduLeaves) : LeafOp → PduLeaves
  | remove room id => Function.update leaves room ((leaves room).erase id)
  | insert room id => Function.update leaves room (Insert.insert id (leaves room))

def applyBatch (leaves : PduLeaves) (batch : List LeafOp) : PduLeaves := batch.foldl LeafOp.apply leaves

/-! ## The reads of a call -/

inductive ReadError where
  | notFound
  | other (error : String)

structure TipReads where
  isEventRejected : EventId → Except String Bool
  isEventSoftFailed : EventId → Except String Bool
  getEventMetadata : EventId → Except ReadError EventMetadata
  /-- Listing the stored rows fails, which the call does not see. -/
  scanFails : Bool

namespace TipReads

/-- Whether a candidate may be stored. -/
def admits (reads : TipReads) (trustedNewEvent : Option EventId) (id : EventId) : Except String Bool :=
  if trustedNewEvent = some id then .ok true
  else
    let verdicts := do
      let rejected ← reads.isEventRejected id
      let softFailed ← reads.isEventSoftFailed id
      return rejected || softFailed
    match verdicts with
    | .error error => .error ("Failed to read verdicts for forward extremity " ++ id ++ ": " ++ error)
    | .ok true => .ok false
    | .ok false =>
      match reads.getEventMetadata id with
      | .ok metadata => .ok !metadata.isOutlier
      | .error .notFound => .ok false
      | .error (.other error) => .error ("Failed to read metadata for forward extremity " ++ id ++ ": " ++ error)

/-- The loop over the candidates. -/
def eligible (reads : TipReads) (trustedNewEvent : Option EventId) : List EventId → Except String (List EventId)
  | [] => .ok []
  | id :: ids => do
    let passes ← reads.admits trustedNewEvent id
    let rest ← reads.eligible trustedNewEvent ids
    return if passes then id :: rest else rest

end TipReads

/-- The key of a row is two texts, so writing it does not fail. -/
def setForwardExtremities (reads : TipReads) (maxExtremities : Nat) (room : RoomId) (eventIds : List EventId)
    (trustedNewEvent : Option EventId) (leaves : PduLeaves) : Except String Unit × PduLeaves :=
  match reads.eligible trustedNewEvent eventIds with
  | .error error => (.error error, leaves)
  | .ok [] => (.ok (), leaves)
  | .ok eligible =>
    let listed := if reads.scanFails then [] else (leaves room).sort (· ≤ ·)
    let start := eligible.length - maxExtremities
    (.ok (), applyBatch leaves (listed.map (.remove room) ++ (eligible.drop start).map (.insert room)))

/-! ## What one call does -/

theorem applyBatch_append (leaves : PduLeaves) (removed inserted : List LeafOp) :
    applyBatch leaves (removed ++ inserted) = applyBatch (applyBatch leaves removed) inserted :=
  List.foldl_append

theorem applyBatch_remove (room : RoomId) (ids : List EventId) (leaves : PduLeaves) :
    applyBatch leaves (ids.map (.remove room)) = Function.update leaves room (leaves room \ ids.toFinset) := by
  induction ids generalizing leaves with
  | nil => simp [applyBatch]
  | cons id ids ih =>
    have hstep : applyBatch leaves ((id :: ids).map (.remove room)) =
        applyBatch (LeafOp.apply leaves (.remove room id)) (ids.map (.remove room)) := rfl
    rw [hstep, ih, LeafOp.apply, Function.update_idem, Function.update_self]
    congr 1
    ext x
    simp only [Finset.mem_sdiff, Finset.mem_erase, List.mem_toFinset, List.mem_cons, not_or]
    tauto

theorem applyBatch_insert (room : RoomId) (ids : List EventId) (leaves : PduLeaves) :
    applyBatch leaves (ids.map (.insert room)) = Function.update leaves room (leaves room ∪ ids.toFinset) := by
  induction ids generalizing leaves with
  | nil => simp [applyBatch]
  | cons id ids ih =>
    have hstep : applyBatch leaves ((id :: ids).map (.insert room)) =
        applyBatch (LeafOp.apply leaves (.insert room id)) (ids.map (.insert room)) := rfl
    rw [hstep, ih, LeafOp.apply, Function.update_idem, Function.update_self]
    congr 1
    ext x
    simp only [Finset.mem_union, Finset.mem_insert, List.mem_toFinset, List.mem_cons]
    tauto

/-- What the stores say of a candidate that may be stored. -/
def Admitted (reads : TipReads) (trustedNewEvent : Option EventId) (id : EventId) : Prop :=
  trustedNewEvent = some id ∨ reads.isEventRejected id = .ok false ∧ reads.isEventSoftFailed id = .ok false ∧
    ∃ metadata, reads.getEventMetadata id = .ok metadata ∧ metadata.isOutlier = false

section
variable {reads : TipReads} {trustedNewEvent : Option EventId}

theorem admits_iff (id : EventId) :
    reads.admits trustedNewEvent id = .ok true ↔ Admitted reads trustedNewEvent id := by
  unfold TipReads.admits Admitted
  by_cases ht : trustedNewEvent = some id
  · simp [ht]
  · rw [if_neg ht, or_iff_right ht]
    cases reads.isEventRejected id with
    | error e => simp [bind, Except.bind]
    | ok rejected =>
      cases reads.isEventSoftFailed id with
      | error e => simp [bind, Except.bind]
      | ok softFailed =>
        cases hm : reads.getEventMetadata id with
        | ok metadata => cases rejected <;> cases softFailed <;> simp [bind, Except.bind, pure, Except.pure]
        | error e =>
          cases e <;> cases rejected <;> cases softFailed <;> simp [bind, Except.bind, pure, Except.pure]

theorem mem_eligible {ids eligible : List EventId} (h : reads.eligible trustedNewEvent ids = .ok eligible)
    (id : EventId) : id ∈ eligible ↔ id ∈ ids ∧ Admitted reads trustedNewEvent id := by
  induction ids generalizing eligible with
  | nil =>
    cases h
    simp
  | cons x ids ih =>
    unfold TipReads.eligible at h
    cases hx : reads.admits trustedNewEvent x with
    | error e =>
      rw [hx] at h
      cases h
    | ok passes =>
      cases hrest : reads.eligible trustedNewEvent ids with
      | error e =>
        rw [hx, hrest] at h
        cases h
      | ok rest =>
        rw [hx, hrest] at h
        cases h
        have hiff := @admits_iff reads trustedNewEvent x
        rw [hx, Except.ok.injEq] at hiff
        by_cases ha : passes = true
        · have hadmitted := hiff.mp ha
          rw [if_pos ha, List.mem_cons, ih hrest, List.mem_cons, or_and_right]
          refine or_congr_left ⟨fun heq => ⟨heq, heq ▸ hadmitted⟩, fun hand => hand.1⟩
        · rw [if_neg ha, ih hrest, List.mem_cons]
          refine and_congr_left fun hid => (or_iff_right ?_).symm
          rintro rfl
          exact ha (hiff.mpr hid)

/-- A call fails, or finds no candidate that may be stored, and changes nothing; or it leaves
the last of those it may store, and the rows that it could not list. -/
theorem setForwardExtremities_cases (reads : TipReads) (maxExtremities : Nat) (room : RoomId)
    (eventIds : List EventId) (trustedNewEvent : Option EventId) (leaves : PduLeaves) :
    (∃ error, setForwardExtremities reads maxExtremities room eventIds trustedNewEvent leaves =
      (.error error, leaves)) ∨
    ((∀ id ∈ eventIds, ¬Admitted reads trustedNewEvent id) ∧
      setForwardExtremities reads maxExtremities room eventIds trustedNewEvent leaves = (.ok (), leaves)) ∨
    ∃ eligible, eligible ≠ [] ∧ (∀ id ∈ eligible, id ∈ eventIds ∧ Admitted reads trustedNewEvent id) ∧
      setForwardExtremities reads maxExtremities room eventIds trustedNewEvent leaves =
        (.ok (), Function.update leaves room ((if reads.scanFails then leaves room else ∅) ∪
          (eligible.drop (eligible.length - maxExtremities)).toFinset)) := by
  unfold setForwardExtremities
  cases he : reads.eligible trustedNewEvent eventIds with
  | error error => exact Or.inl ⟨error, rfl⟩
  | ok eligible =>
    have hmem := mem_eligible he
    cases eligible with
    | nil => exact Or.inr (Or.inl ⟨fun id hid hadm => List.not_mem_nil ((hmem id).mpr ⟨hid, hadm⟩), rfl⟩)
    | cons x rest =>
      refine Or.inr (Or.inr ⟨x :: rest, List.cons_ne_nil x rest, fun id hid => (hmem id).mp hid, ?_⟩)
      simp only [applyBatch_append, applyBatch_remove, applyBatch_insert, Function.update_idem,
        Function.update_self]
      cases reads.scanFails with
      | true => simp
      | false => simp

end

/-! ## What one call may leave -/

/-- With a cap of at least one and a readable list of rows: a call that fails changes nothing. One that
succeeds finds no candidate that may be stored and changes nothing, or leaves as tips nothing but
candidates that may be stored, no more than the cap; a room that has tips keeps some. -/
theorem setForwardExtremities_filtered (reads : TipReads) (maxExtremities : Nat) (room : RoomId)
    (eventIds : List EventId) (trustedNewEvent : Option EventId) (leaves leaves' : PduLeaves)
    (result : Except String Unit) (hmax : 1 ≤ maxExtremities) (hscan : reads.scanFails = false)
    (h : setForwardExtremities reads maxExtremities room eventIds trustedNewEvent leaves = (result, leaves')) :
    (∀ error, result = .error error → leaves' = leaves) ∧
    (result = .ok () →
      ((∀ id ∈ eventIds, ¬Admitted reads trustedNewEvent id) ∧ leaves' = leaves ∨
        (∀ id ∈ leaves' room, id ∈ eventIds ∧ Admitted reads trustedNewEvent id) ∧
          (leaves' room).card ≤ maxExtremities) ∧
      ((leaves room).Nonempty → (leaves' room).Nonempty)) := by
  rcases setForwardExtremities_cases reads maxExtremities room eventIds trustedNewEvent leaves with
    ⟨error, hfail⟩ | ⟨hnone, hkeep⟩ | ⟨eligible, hne, hadmitted, hset⟩
  · obtain ⟨rfl, rfl⟩ := Prod.mk.inj (h.symm.trans hfail)
    refine ⟨fun _ _ => rfl, fun hok => ?_⟩
    cases hok
  · obtain ⟨rfl, rfl⟩ := Prod.mk.inj (h.symm.trans hkeep)
    exact ⟨fun _ _ => rfl, fun _ => ⟨Or.inl ⟨hnone, rfl⟩, id⟩⟩
  · obtain ⟨rfl, rfl⟩ := Prod.mk.inj (h.symm.trans hset)
    have hroom : Function.update leaves room ((if reads.scanFails then leaves room else ∅) ∪
        (eligible.drop (eligible.length - maxExtremities)).toFinset) room =
        (eligible.drop (eligible.length - maxExtremities)).toFinset := by
      rw [Function.update_self, hscan, if_neg Bool.false_ne_true, Finset.empty_union]
    have hlen : 0 < eligible.length := List.length_pos_iff.mpr hne
    constructor
    · intro error he
      cases he
    refine fun _ => ⟨Or.inr ⟨fun id hid => ?_, ?_⟩, fun _ => ?_⟩
    · rw [hroom, List.mem_toFinset] at hid
      exact hadmitted id (List.mem_of_mem_drop hid)
    · rw [hroom]
      refine (List.toFinset_card_le _).trans ?_
      rw [List.length_drop]
      omega
    · rw [hroom, List.toFinset_nonempty_iff]
      refine List.ne_nil_of_length_pos ?_
      rw [List.length_drop]
      omega

/-- Reads of stores in which `$old` is an outlier, `$bad` rejected and `$new` in the timeline. -/
def threeEvents : TipReads where
  isEventRejected id := .ok (id = "$bad")
  isEventSoftFailed _ := .ok false
  getEventMetadata id := .ok ⟨id = "$old", none⟩
  scanFails := false

theorem setForwardExtremities_filtered_new :
    ((setForwardExtremities threeEvents 1 "!r" ["$bad", "$new"] none fun _ => {"$old"}).2 "!r").card ≤ 1 := by
  have h := setForwardExtremities_filtered threeEvents 1 "!r" ["$bad", "$new"] none (fun _ => {"$old"})
    (setForwardExtremities threeEvents 1 "!r" ["$bad", "$new"] none fun _ => {"$old"}).2
      (.ok ()) (by decide) rfl rfl
  rcases (h.2 rfl).1 with ⟨hnone, -⟩ | ⟨-, hcard⟩
  · exact absurd (Or.inr ⟨rfl, rfl, _, rfl, rfl⟩) (hnone "$new" (by decide))
  · exact hcard

/-- Where no candidate may be stored the old tips stay, here an outlier that is no candidate. -/
theorem old_tips_stay :
    setForwardExtremities threeEvents 10 "!r" ["$bad"] none (fun _ => {"$old"}) = (.ok (), fun _ => {"$old"}) ∧
      "$old" ∉ ["$bad"] ∧ ¬Admitted threeEvents none "$old" := by
  refine ⟨rfl, by decide, ?_⟩
  rintro (h | ⟨-, -, metadata, hm, ho⟩)
  · cases h
  · cases hm
    cases ho

end Congruent.TipWrites
