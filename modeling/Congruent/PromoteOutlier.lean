import Congruent.Crash
import Congruent.Federation
import Congruent.Promotions
import Congruent.TimelineOps

/-!
# An interrupted promotion

`promote_outlier` makes several writes, each committed on its own: the marker of the
outlier is cleared before the batch with the rows of the event is applied. Between these
two the event is neither an outlier nor in the timeline.
-/

namespace Congruent

open Call (CrashTriple crashTriple_and_iff)
open TimelineData

namespace TimelineData.Tables

/-- `clear_outlier_flag`. -/
def clearOutlierFlag (t : Tables) (id : EventId) : Tables :=
  { t with
    eventidMetadata :=
      match t.eventidMetadata.lookup id with
      | some m => if m.isOutlier then t.eventidMetadata.insert id { m with isOutlier := false } else
          t.eventidMetadata
      | none => t.eventidMetadata }

def HasRows (t : Tables) (id : EventId) : Prop :=
  ∃ p m, t.getPduId id = some p ∧ t.roomPducountEventid.lookup p = some id ∧ t.eventidMetadata.lookup id = some m ∧
    t.roomidTopologicalorderPducount.lookup (topoPducountKey p m.deprecatedLocalTopoDepth) = some id

def Reachable (t : Tables) (id : EventId) : Prop := t.outlierPduExists id = true ∨ t.HasRows id

end TimelineData.Tables

namespace Promotions

/-! ## The stores -/

/-- What a promotion reads and writes. The short ids of events are left out: rows are
under the ids themselves. -/
structure Stores where
  tables : Tables
  roomidShortroomid : RoomId → Option Nat
  count : Nat
  rejections : EventId → Option RejectionCode
  softFailed : EventId → Bool
  roomRoot : RoomId → Option Root
  publishedRoot : EventId → Option Root
  eventRoot : EventId → Option Root
  searched : PduId → Option String
  /-- `pending_promotions`, in memory. -/
  claims : EventId → Option Disposition

/-- The accesses that may return an error. -/
inductive Fallible where
  | isEventRejected
  | isEventSoftFailed
  | nextCount
  | publishRoots
  | finishPromotion
  deriving DecidableEq

/-- A promotion's batch: what it has read, and the rows it writes. -/
structure Batch where
  insert : Insert
  seen : Seen

inductive Outcome where
  | skipped
  | queued
  deriving DecidableEq

abbrev P (A : Type) := Call HErr Stores A

section
variable (plat : Platform) (fails : Fallible → Bool) (room : RoomId) (id : EventId)

def fallible (f : Fallible) : P Unit := Call.refuse (fails f) (.database "storage error")

def nextCount : P Nat := Call.act fun s => (.ok (s.count + 1), { s with count := s.count + 1 })

def getOrCreateShortroomid : P Nat := do
  match ← Call.read fun s => s.roomidShortroomid room with
  | some short => pure short
  | none => do
    let short ← nextCount
    Call.modify fun s => { s with roomidShortroomid := Function.update s.roomidShortroomid room (some short) }
    pure short

def getOutlierPduJson : P Object :=
  Call.ask fun s =>
    match s.tables.eventidPdu.lookup id with
    | some json => .ok json
    | none => .error (.request "Not found.")

def decodeOutlier (json : Object) : Except HErr Pdu :=
  match plat.decodePdu json with
  | .ok pdu => .ok { pdu with eventId := id }
  | .error _ => .error (.database "Bad outlier PDU")

def tryClaimPromotion : P Bool :=
  Call.act fun s =>
    match s.claims id with
    | some _ => (.ok false, s)
    | none => (.ok true, { s with claims := Function.update s.claims id (some .promoting) })

def releasePromotionClaim : P Unit :=
  Call.modify fun s =>
    if s.claims id = some .promoting then { s with claims := Function.update s.claims id none } else s

def setEventRoothandle (root : Root) : P Unit := do
  fallible fails .publishRoots
  Call.modify fun s => { s with publishedRoot := Function.update s.publishedRoot id (some root) }
  Call.modify fun s => { s with eventRoot := Function.update s.eventRoot id (some root) }

def associateCurrentState : P Unit := do
  let root ← Call.ask fun s =>
    match s.roomRoot room with
    | some root => .ok root
    | none => .error (.request "Not found.")
  setEventRoothandle fails id root

def searchBody (pdu : Pdu) : Option String :=
  if pdu.kind = .other "m.room.message" then (pdu.content.get "body").bind Value.asStr else none

def indexPduSearch (pduId : PduId) (pdu : Pdu) : P Unit :=
  match searchBody pdu with
  | some body => Call.modify fun s => { s with searched := Function.update s.searched pduId (some body) }
  | none => pure ()

/-- What is done once the event is claimed; `none` when its verdict forbids it. -/
def queuePromotion (shortroomid : Nat) (json : Object) (pdu : Pdu) : P (Option Batch) := do
  fallible fails .isEventRejected
  if ← Call.read fun s => (s.rejections id).isSome then pure none
  else do
    fallible fails .isEventSoftFailed
    if ← Call.read fun s => s.softFailed id then pure none
    else do
      fallible fails .nextCount
      let count ← nextCount
      let pduId : PduId := .ofCount shortroomid (.backfilled (-count))
      associateCurrentState fails room id
      let x : Insert := ⟨pduId, true, pdu, json⟩
      let seen ← Call.read fun s => s.tables.see x
      indexPduSearch pduId pdu
      Call.modify fun s => { s with tables := s.tables.clearOutlierFlag id }
      pure (some ⟨x, seen⟩)

def releaseUnlessQueued : Except HErr (Option Batch) → P (Option Batch)
  | .ok (some batch) => pure (some batch)
  | .ok none => do
    releasePromotionClaim id
    pure none
  | .error e => do
    releasePromotionClaim id
    throw e

/-- The room's insert lock, which only takes interleavings away, is left out. -/
def promoteOutlierBatch : P (Option Batch) := do
  if ← Call.read fun s => s.tables.nonOutlierPduExists id then pure none
  else do
    let json ← getOutlierPduJson id
    let pdu ← Call.ask fun _ => decodeOutlier plat id json
    let shortroomid ← getOrCreateShortroomid room
    if ← Call.read fun s => s.tables.nonOutlierPduExists id then pure none
    else if ← tryClaimPromotion id then do
      let r ← Call.attempt (queuePromotion fails room id shortroomid json pdu)
      releaseUnlessQueued id r
    else pure none

def finishPromotion : P Unit :=
  if fails .finishPromotion then pure ()
  else do
    let code ← Call.read fun s => s.rejections id
    if (RetryOp.finishPromotion.decide code).clears then
      Call.modify fun s => { s with rejections := Function.update s.rejections id none }
    else pure ()

def commitPromotion : Option Batch → P Outcome
  | none => pure .skipped
  | some batch => do
    Call.modify fun s => { s with tables := s.tables.insertRows batch.insert batch.seen }
    releasePromotionClaim id
    finishPromotion fails id
    pure .queued

def promoteOutlier : P Outcome := do
  let batch ← promoteOutlierBatch plat fails room id
  commitPromotion fails id batch

end

end Promotions

/-! ## The tables -/

namespace TimelineData.Tables

variable {t : Tables} {id : EventId}

variable (t id) in
theorem lookup_clearOutlierFlag : (t.clearOutlierFlag id).eventidMetadata.lookup id =
    (t.eventidMetadata.lookup id).map fun m => { m with isOutlier := false } := by
  unfold clearOutlierFlag
  cases hm : t.eventidMetadata.lookup id with
  | none => simpa using hm
  | some m =>
    by_cases ho : m.isOutlier = true
    · simp [ho]
    · have hsame : { m with isOutlier := false } = m := by rw [← Bool.not_eq_true _ |>.mp ho]
      simpa only [if_neg ho, Option.map_some, hsame] using hm

variable (t id) in
theorem getPduId_clearOutlierFlag : (t.clearOutlierFlag id).getPduId id = t.getPduId id := by
  unfold getPduId
  rw [lookup_clearOutlierFlag]
  cases t.eventidMetadata.lookup id with
  | none => rfl
  | some m =>
    rw [Option.map_some, Option.bind_some, Option.bind_some]
    cases m.pduCount <;> rfl

theorem not_reachable_clearOutlierFlag (h : t.nonOutlierPduExists id = false) : ¬ (t.clearOutlierFlag
    id).Reachable id := by
  intro hreach
  rcases hreach with hmarked | ⟨p, m, hp, hrow, -, -⟩
  · rw [outlierPduExists, lookup_clearOutlierFlag] at hmarked
    cases hm : t.eventidMetadata.lookup id <;> simp [hm] at hmarked
  · rw [getPduId_clearOutlierFlag] at hp
    change t.roomPducountEventid.lookup p = some id at hrow
    rw [nonOutlierPduExists, hp, Option.any_some, hrow] at h
    cases h

theorem hasRows_insertRows {x : Insert} (seen : Seen) (hback : x.backfill = true)
    (hcount : x.pduId.shorteventid ≤ 0) :
    (t.insertRows x seen).HasRows x.pdu.eventId := by
  have hnone : x.metadata.pduCount = none := by
    unfold Insert.metadata PduId.pduCount PduCount.fromSigned
    simp [hback, hcount]
  refine ⟨x.pduId, x.metadata, ?_, ?_, ?_, ?_⟩
  · rw [getPduId, lookup_insertRows_metadata, if_pos rfl, Option.bind_some, hnone]
    exact (lookup_insertRows_pduid _).trans (if_pos rfl)
  · rw [lookup_insertRows_stream, if_pos rfl]
  · rw [lookup_insertRows_metadata, if_pos rfl]
  · exact (lookup_insertRows_topo _).trans (if_pos rfl)

end TimelineData.Tables

namespace Promotions

/-! ## What a promotion leaves when it is dropped -/

section
variable {plat : Platform} {fails : Fallible → Bool} {room : RoomId} {id : EventId} {t : Tables} {A : Type}

def HasTables (t : Tables) (s : Stores) : Prop := s.tables = t

/-- The program leaves the tables as they are, wherever it is dropped. -/
abbrev SameTables (t : Tables) (p : P A) : Prop :=
  CrashTriple (HasTables t) (HasTables t) p (fun _ => HasTables t) (HasTables t)

theorem read_same (f : Stores → A) : SameTables t (Call.read f) := CrashTriple.read (fun _ h => h) fun _ h => h

theorem modify_same {f : Stores → Stores} (h : ∀ s, (f s).tables = s.tables) : SameTables t (Call.modify f) :=
  CrashTriple.modify (fun _ hs => hs) fun s hs => (h s).trans hs

theorem fallible_same (f : Fallible) : SameTables t (fallible fails f) := CrashTriple.refuse _ _ fun _ h => h

theorem nextCount_same : SameTables t nextCount :=
  CrashTriple.act (fun _ h => h) (fun _ h _ _ => h) fun _ h _ _ => h

theorem getOrCreateShortroomid_same : SameTables t (getOrCreateShortroomid room) := by
  unfold getOrCreateShortroomid
  apply CrashTriple.bind (read_same _)
  intro found
  cases found with
  | some short => exact CrashTriple.pure _ fun _ h => h
  | none =>
    apply CrashTriple.bind nextCount_same
    intro short
    refine CrashTriple.bind (modify_same fun _ => rfl) ?_
    intro _
    exact CrashTriple.pure _ fun _ h => h

theorem tryClaimPromotion_same : SameTables t (tryClaimPromotion id) := by
  apply CrashTriple.act (fun _ h => h)
  · intro s hs a _
    split <;> exact hs
  · intro s hs e _
    split <;> exact hs

theorem releasePromotionClaim_same : SameTables t (releasePromotionClaim id) := by
  apply modify_same
  intro s
  split <;> rfl

theorem associateCurrentState_same : SameTables t (associateCurrentState fails room id) := by
  unfold associateCurrentState setEventRoothandle
  apply CrashTriple.bind (CrashTriple.ask (fun _ h => h) (fun _ h _ _ => h) fun _ h => h)
  intro root
  apply CrashTriple.bind (fallible_same _)
  intro _
  refine CrashTriple.bind (modify_same fun _ => rfl) ?_
  intro _
  exact modify_same fun _ => rfl

theorem indexPduSearch_same (pduId : PduId) (pdu : Pdu) : SameTables t (indexPduSearch pduId pdu) := by
  unfold indexPduSearch
  cases searchBody pdu with
  | some body => exact modify_same fun _ => rfl
  | none => exact CrashTriple.pure _ fun _ h => h

/-- The batch holds the rows of the event before the start of the timeline. -/
structure BatchOf (id : EventId) (batch : Batch) : Prop where
  event : batch.insert.pdu.eventId = id
  backfill : batch.insert.backfill = true
  position : batch.insert.pduId.shorteventid ≤ 0

/-- With a batch the marker is cleared, and without one nothing happened. -/
def Queued (t : Tables) (id : EventId) : Option Batch → Stores → Prop
  | none, s => HasTables t s
  | some batch, s => BatchOf id batch ∧ HasTables (t.clearOutlierFlag id) s

theorem queuePromotion_crash (shortroomid : Nat) (json : Object) {pdu : Pdu} (hpdu : pdu.eventId = id) :
    CrashTriple (HasTables t) (HasTables t) (queuePromotion fails room id shortroomid json pdu) (Queued t id)
      (HasTables t) := by
  unfold queuePromotion
  apply CrashTriple.bind (fallible_same _)
  intro _
  apply CrashTriple.bind (read_same _)
  intro rejected
  split
  · exact CrashTriple.pure _ fun _ h => h
  · apply CrashTriple.bind (fallible_same _)
    intro _
    apply CrashTriple.bind (read_same _)
    intro softFailed
    split
    · exact CrashTriple.pure _ fun _ h => h
    · apply CrashTriple.bind (fallible_same _)
      intro _
      apply CrashTriple.bind nextCount_same
      intro count
      apply CrashTriple.bind associateCurrentState_same
      intro _
      apply CrashTriple.bind (read_same _)
      intro seen
      apply CrashTriple.bind (indexPduSearch_same _ _)
      intro _
      have hclear : ∀ s, HasTables t s → HasTables (t.clearOutlierFlag id)
          { s with tables := s.tables.clearOutlierFlag id } := by
        intro s hs
        exact congrArg (fun t : Tables => t.clearOutlierFlag id) hs
      apply CrashTriple.bind (CrashTriple.modify (fun _ h => h) hclear)
      intro _
      apply CrashTriple.pure
      intro s hs
      refine ⟨⟨hpdu, rfl, ?_⟩, hs⟩
      exact neg_nonpos.2 (Int.natCast_nonneg _)

theorem releaseUnlessQueued_crash (r : Except HErr (Option Batch)) :
    CrashTriple (fun s => (∀ b, r = .ok b → Queued t id b s) ∧ ∀ e, r = .error e → HasTables t s)
      (fun s => HasTables t s) (releaseUnlessQueued id r) (Queued t id) (HasTables t) := by
  match r with
  | .ok (some batch) => exact CrashTriple.pure _ fun s hs => hs.1 _ rfl
  | .ok none =>
    have hrelease : SameTables t (releasePromotionClaim id) := releasePromotionClaim_same
    refine CrashTriple.bind (hrelease.mono (fun s hs => hs.1 _ rfl) (fun _ _ h => h) fun _ h => h) ?_
    intro _
    exact CrashTriple.pure _ fun _ h => h
  | .error e =>
    have hrelease : SameTables t (releasePromotionClaim id) := releasePromotionClaim_same
    refine CrashTriple.bind (hrelease.mono (fun s hs => hs.2 _ rfl) (fun _ _ h => h) fun _ h => h) ?_
    intro _
    exact CrashTriple.throw _ fun _ h => h

variable (plat fails room id t) in
theorem promoteOutlierBatch_crash : CrashTriple (HasTables t) (HasTables t) (promoteOutlierBatch plat fails room id)
    (fun r s => Queued t id r s ∧ (r.isSome → t.nonOutlierPduExists id = false)) (HasTables t) := by
  have hskip : CrashTriple (HasTables t) (HasTables t) (pure none : P (Option Batch))
      (fun r s => Queued t id r s ∧ (r.isSome → t.nonOutlierPduExists id = false)) (HasTables t) :=
    CrashTriple.pure _ fun _ h => ⟨h, fun hr => by cases hr⟩
  unfold promoteOutlierBatch
  apply CrashTriple.bind (read_same _)
  intro present
  split
  · exact hskip
  · apply CrashTriple.bind (CrashTriple.ask (fun _ h => h) (fun _ h _ _ => h) fun _ h => h)
    intro json
    -- the decoded event has the id that it is stored under
    apply CrashTriple.bind (Q := fun pdu s => HasTables t s ∧ pdu.eventId = id)
    · apply CrashTriple.ask (fun _ h => h)
      · intro s hs pdu hpdu
        refine ⟨hs, ?_⟩
        unfold decodeOutlier at hpdu
        split at hpdu
        · cases hpdu
          rfl
        · cases hpdu
      · exact fun _ h => h
    intro pdu
    rw [crashTriple_and_iff]
    intro hpdu
    apply CrashTriple.bind getOrCreateShortroomid_same
    intro shortroomid
    apply CrashTriple.bind (Q := fun present s => HasTables t s ∧ t.nonOutlierPduExists id = present)
    · exact CrashTriple.read (fun _ h => h) fun s hs => ⟨hs, congrArg (·.nonOutlierPduExists id) hs.symm⟩
    intro present
    rw [crashTriple_and_iff]
    intro hpresent
    split
    · exact hskip
    · next hnot =>
      apply CrashTriple.bind tryClaimPromotion_same
      intro claimed
      split
      · apply CrashTriple.bind (CrashTriple.attempt (queuePromotion_crash shortroomid json hpdu))
        intro r
        apply (releaseUnlessQueued_crash r).mono (fun _ h => h) _ fun _ h => h
        exact fun r s h => ⟨h, fun _ => hpresent.trans (Bool.not_eq_true _ |>.mp hnot)⟩
      · exact hskip

theorem commitPromotion_after (batch : Batch) (n : Nat) (s : Stores) :
    ((commitPromotion fails id (some batch)).run.after (n + 1) s).tables =
      s.tables.insertRows batch.insert batch.seen := by
  have hfinish : ∀ t, SameTables t (do
      releasePromotionClaim id
      finishPromotion fails id
      pure .queued : P Outcome) := by
    intro t
    apply CrashTriple.bind releasePromotionClaim_same
    intro _
    apply CrashTriple.bind (Q := fun _ => HasTables t)
    · unfold finishPromotion
      split
      · exact CrashTriple.pure _ fun _ h => h
      · apply CrashTriple.bind (read_same _)
        intro code
        split
        · exact modify_same fun _ => rfl
        · exact CrashTriple.pure _ fun _ h => h
    · intro _
      exact CrashTriple.pure _ fun _ h => h
  exact (hfinish _).after (s := { s with tables := s.tables.insertRows batch.insert batch.seen }) rfl n

variable (plat fails room id) in
/-- The promotion is dropped when the marker is cleared and the batch is not applied. -/
def BetweenWrites (n : Nat) (s : Stores) : Prop :=
  n = (promoteOutlierBatch plat fails room id).run.steps s ∧
    ∃ batch, ((promoteOutlierBatch plat fails room id).exec s).1 = .ok (some batch)

variable (plat fails room id) in
/-- Wherever the promotion of an outlier is dropped, the event is still an outlier or has
its rows, unless that is after its marker is cleared and before the batch is applied. -/
theorem interrupted_promotion_reachable (n : Nat) {s : Stores} (hout : s.tables.outlierPduExists id = true) :
    ((promoteOutlier plat fails room id).run.after n s).tables.Reachable id ↔
      ¬ BetweenWrites plat fails room id n s := by
  have hcrash := promoteOutlierBatch_crash plat fails room id s.tables
  have hstart : HasTables s.tables s := rfl
  have hmarked : ∀ {s' : Stores}, HasTables s.tables s' → s'.tables.Reachable id := by
    intro s' hs'
    rw [hs']
    exact .inl hout
  unfold promoteOutlier
  by_cases hn : n < (promoteOutlierBatch plat fails room id).run.steps s
  · rw [Call.after_bind_lt _ hn]
    exact iff_of_true (hmarked (hcrash.before hstart hn)) fun h => absurd h.1 hn.ne
  · rw [Nat.not_lt] at hn
    rw [Call.after_bind_le _ hn]
    unfold BetweenWrites
    obtain ⟨hok, herr⟩ := hcrash.triple s hstart
    rcases hrun : (promoteOutlierBatch plat fails room id).exec s with ⟨r, s'⟩
    match r with
    | .error e => exact iff_of_true (hmarked (herr e s' hrun)) fun ⟨_, _, h⟩ => by cases h
    | .ok none =>
      have hskipped : ∀ m, (commitPromotion fails id none).run.after m s' = s' := fun m => Prog.after_ret m _ s'
      dsimp only
      rw [hskipped]
      exact iff_of_true (hmarked (hok none s' hrun).1) fun ⟨_, _, h⟩ => by cases h
    | .ok (some batch) =>
      obtain ⟨⟨hbatch, htables⟩, habsent⟩ := hok (some batch) s' hrun
      dsimp only
      rcases Nat.eq_or_lt_of_le hn with heq | hlt
      · rw [← heq, Nat.sub_self, Prog.after_zero, htables]
        exact iff_of_false (Tables.not_reachable_clearOutlierFlag (habsent rfl)) fun h => h ⟨rfl, batch, rfl⟩
      · obtain ⟨m, hm⟩ := Nat.exists_eq_add_of_lt hlt
        have hsub : n - (promoteOutlierBatch plat fails room id).run.steps s = m + 1 := by omega
        rw [hsub, commitPromotion_after]
        refine iff_of_true (.inr ?_) fun h => by omega
        have hrows := Tables.hasRows_insertRows (t := s'.tables) batch.seen hbatch.backfill hbatch.position
        rwa [hbatch.event] at hrows

end

/-! ## An outlier that is lost -/

def outlierJson : Object := wireEvent "a" "m.room.name" "@u:b" (some "") [("name", .str "x")] [] []

def Stores.plain : Stores where
  tables := Tables.empty.addPduOutlier "$a" 1 outlierJson (Platform.plain.decodePdu outlierJson).toOption
  roomidShortroomid room := if room = "!r:a" then some 1 else none
  count := 6
  rejections _ := none
  softFailed _ := false
  roomRoot room := if room = "!r:a" then some ∅ else none
  publishedRoot _ := none
  eventRoot _ := none
  searched _ := none
  claims _ := none

theorem finished_promotion_reachable :
    ((promoteOutlier .plain (fun _ => false) "!r:a" "$a").run.after 20 .plain).tables.Reachable "$a" := by
  have hsteps : (promoteOutlierBatch .plain (fun _ => false) "!r:a" "$a").run.steps .plain = 14 := by decide
  apply (interrupted_promotion_reachable .plain (fun _ => false) "!r:a" "$a" 20 (s := .plain) (by decide)).2
  intro h
  exact absurd (h.1.trans hsteps) (by decide)

-- After fourteen accesses the marker is cleared, and the event has no position.
theorem interrupted_promotion_lost :
    ¬ ∀ (plat : Platform) (fails : Fallible → Bool) (room : RoomId) (id : EventId) (n : Nat) (s : Stores),
      s.tables.outlierPduExists id = true →
        ((promoteOutlier plat fails room id).run.after n s).tables.Reachable id := by
  intro h
  have hlost : ((promoteOutlier .plain (fun _ => false) "!r:a" "$a").run.after 14 .plain).tables.outlierPduExists
    "$a" =
      false ∧ ((promoteOutlier .plain (fun _ => false) "!r:a" "$a").run.after 14 .plain).tables.getPduId
        "$a" = none := by
    decide
  rcases h .plain (fun _ => false) "!r:a" "$a" 14 .plain (by decide) with hmarked | ⟨p, m, hp, -⟩
  · rw [hlost.1] at hmarked
    cases hmarked
  · rw [hlost.2] at hp
    cases hp

end Promotions

end Congruent
