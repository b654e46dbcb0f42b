import Mathlib.Data.List.TakeWhile
import Congruent.TopoScans

/-!
# Topological pages (`parse_topo_stream` of `timeline/data.rs`)

A row that a pass goes over is yielded when it is where the metadata of its event, and for a
backfilled count `eventid_pduid`, have the event.
-/

namespace Congruent.TopoPages

open Store (Bytes)
open TopoKeys StreamScans TopoScans

def matchesTimelinePosition (m : TopoScans.EventMetadata) (depth : UInt64) (pduCount : Count) : Bool :=
  !m.isOutlier && decide (m.deprecatedLocalTopoDepth = depth) &&
    match pduCount with
    | .normal i => decide (m.pduCount = some i)
    | .backfilled n =>
      match m.pduCount with
      | none => true
      | some legacy => decide (legacy = Words.I64.unsignedAbs n)

/-- A database where every event is stored under its own id. -/
structure EventData (RoomId Pdu : Type) extends TopoData RoomId Pdu where
  eventId : Pdu → Bytes
  own : ∀ id json pdu, eventidPdu id = some json → fromJsonSlice json = .ok pdu → eventId pdu = id

abbrev TopoIterItem (Pdu : Type) := TopoToken × Pdu

namespace EventData

variable {RoomId Pdu : Type} (db : EventData RoomId Pdu)

/-- What `parse_topo_stream` makes of a row: an error, nothing, or an item. -/
def parseRow (row : TopoRow) : Except String (Option (TopoIterItem Pdu)) := do
  let pduId := topoKeyToPduId row.1
  let (pduCount, pdu) ← db.resolvePdu (pduId, row.2)
  match db.eventidMetadata row.2 with
  | none => .error "not found in database"
  | some bytes =>
    match db.fromBincode bytes with
    | none => .ok none
    | some metadata =>
      if !matchesTimelinePosition metadata (depth row.1) pduCount then .ok none
      else
        let item : TopoIterItem Pdu := (⟨depth row.1, pduCount⟩, pdu)
        match pduCount with
        | .normal _ => .ok (some item)
        | .backfilled _ =>
          match db.eventidPduid row.2 with
          | none => .ok none
          | some canonicalId => if canonicalId ≠ pduId then .ok none else .ok (some item)

def parseTopoStream (rows : List TopoRow) : List (Except String (TopoIterItem Pdu)) :=
  rows.filterMap fun row =>
    match db.parseRow row with
    | .error e => some (.error e)
    | .ok none => none
    | .ok (some item) => some (.ok item)

/-- `ready_try_filter_map`: errors stay. -/
def keepItems (p : TopoIterItem Pdu → Bool) (items : List (Except String (TopoIterItem Pdu))) :
    List (Except String (TopoIterItem Pdu)) :=
  items.filter fun item =>
    match item with
    | .error _ => true
    | .ok item => p item

/-- A legacy token leaves out what came at or after it. -/
def belowCeiling (token : TopoToken) (pduCount : Count) : Bool :=
  !(token.isLegacy && decide (token.pduCount.value ≤ pduCount.value))

def aboveFloor (token : TopoToken) (pduCount : Count) : Bool :=
  !(token.isLegacy && decide (pduCount.value ≤ token.pduCount.value))

def topoPdusRev (roomId : RoomId) (until' : TopoToken) : List (Except String (TopoIterItem Pdu)) :=
  match db.getShortroomid roomId with
  | .error e => [.error e]
  | .ok short =>
    keepItems (fun item => belowCeiling until' item.1.pduCount) (db.parseTopoStream (db.topoRowsRev short until'))

def topoPdus (roomId : RoomId) (from' : TopoToken) : List (Except String (TopoIterItem Pdu)) :=
  match db.getShortroomid roomId with
  | .error e => [.error e]
  | .ok short =>
    keepItems (fun item => aboveFloor from' item.1.pduCount) (db.parseTopoStream (db.topoRows short from'))

def yieldedIds (items : List (Except String (TopoIterItem Pdu))) : List Bytes :=
  items.filterMap fun item =>
    match item with
    | .error _ => none
    | .ok item => some (db.eventId item.2)

/-! ## The rows that are yielded -/

/-- The row is where its event is, as far as this is checked. -/
structure Live (row : TopoRow) : Prop where
  stored : ∃ json pdu, db.eventidPdu row.2 = some json ∧ db.fromJsonSlice json = .ok pdu
  placed : ∃ bytes m, db.eventidMetadata row.2 = some bytes ∧ db.fromBincode bytes = some m ∧
    matchesTimelinePosition m (depth row.1) (count row.1) = true
  canonical : ∀ n, count row.1 = .backfilled n → db.eventidPduid row.2 = some (topoKeyToPduId row.1)

variable {db}

theorem parseRow_of_live {row : TopoRow} (h : db.Live row) :
    ∃ pdu, db.parseRow row = .ok (some (⟨depth row.1, count row.1⟩, pdu)) ∧ db.eventId pdu = row.2 := by
  obtain ⟨⟨json, pdu, hjson, hpdu⟩, ⟨bytes, m, hbytes, hm, hmatch⟩, hcanonical⟩ := h
  refine ⟨pdu, ?_, db.own _ _ _ hjson hpdu⟩
  have hresolve : db.resolvePdu (topoKeyToPduId row.1, row.2) = .ok (count row.1, pdu) := by
    unfold Data.resolvePdu
    simp only [hjson, hpdu]
    rfl
  unfold parseRow
  simp only [hresolve, bind, Except.bind, hbytes, hm, hmatch, Bool.not_true, Bool.false_eq_true, if_false]
  split
  · rfl
  · rename_i n hn
    simp only [hcanonical n hn, ne_eq, not_true_eq_false, if_false]

theorem live_of_parseRow {row : TopoRow} {item : TopoIterItem Pdu} (h : db.parseRow row = .ok (some item)) :
    db.Live row := by
  unfold parseRow at h
  unfold Data.resolvePdu at h
  simp only [bind, Except.bind] at h
  cases hjson : db.eventidPdu row.2 with
  | none =>
    simp only [hjson] at h
    cases h
  | some json =>
    simp only [hjson] at h
    cases hpdu : db.fromJsonSlice json with
    | error e =>
      simp only [hpdu] at h
      cases h
    | ok pdu =>
      simp only [hpdu] at h
      cases hbytes : db.eventidMetadata row.2 with
      | none =>
        simp only [hbytes] at h
        cases h
      | some bytes =>
        simp only [hbytes] at h
        cases hm : db.fromBincode bytes with
        | none =>
          simp only [hm] at h
          cases h
        | some m =>
          simp only [hm] at h
          split at h
          · cases h
          · rename_i hmatch
            refine ⟨⟨json, pdu, hjson, hpdu⟩, ⟨bytes, m, hbytes, hm, ?_⟩, ?_⟩
            · unfold count
              simpa using hmatch
            · intro n hn
              have hcount : (topoKeyToPduId row.1).pduCount = .backfilled n := hn
              simp only [hcount] at h
              cases hid : db.eventidPduid row.2 with
              | none =>
                simp only [hid] at h
                cases h
              | some canonicalId =>
                simp only [hid] at h
                split at h
                · cases h
                · rename_i hsame
                  rw [not_not.mp hsame]

def yieldOf (db : EventData RoomId Pdu) (keep : Count → Bool) (row : TopoRow) : Option Bytes :=
  match db.parseRow row with
  | .ok (some item) => if keep item.1.pduCount then some (db.eventId item.2) else none
  | _ => none

theorem yieldOf_eq_some_iff {keep : Count → Bool} {row : TopoRow} {id : Bytes} :
    db.yieldOf keep row = some id ↔ db.Live row ∧ keep (count row.1) = true ∧ row.2 = id := by
  constructor
  · intro h
    unfold yieldOf at h
    split at h
    · rename_i item hitem
      have hlive := live_of_parseRow hitem
      obtain ⟨pdu, hpdu, hown⟩ := parseRow_of_live hlive
      rw [hitem] at hpdu
      cases hpdu
      split at h
      · rename_i hkeep
        exact ⟨hlive, hkeep, hown.symm.trans (Option.some.inj h)⟩
      · cases h
    · cases h
  · rintro ⟨hlive, hkeep, rfl⟩
    obtain ⟨pdu, hpdu, hown⟩ := parseRow_of_live hlive
    unfold yieldOf
    simp only [hpdu, hkeep, if_true, hown]

theorem yieldedIds_pass (keep : Count → Bool) (rows : List TopoRow) :
    db.yieldedIds (keepItems (fun item => keep item.1.pduCount) (db.parseTopoStream rows)) =
      rows.filterMap (db.yieldOf keep) := by
  induction rows with
  | nil => rfl
  | cons row rows ih =>
    unfold yieldedIds keepItems parseTopoStream at ih ⊢
    rw [List.filterMap_cons, List.filterMap_cons, ← ih]
    unfold yieldOf
    cases hrow : db.parseRow row with
    | error e => rfl
    | ok item =>
      cases item with
      | none => rfl
      | some item =>
        dsimp only
        rw [List.filter_cons]
        cases hkeep : keep item.1.pduCount <;> simp [hkeep]

end EventData

/-! ## Rows of one event -/

section
variable {RoomId Pdu : Type} {db : EventData RoomId Pdu}

/-- One event has a row at a live count and one at the backfilled count as far below zero, at
the depth that its metadata have. The metadata have the number of both, which is right for the
one and the legacy encoding of the other, and `eventid_pduid` has the backfilled position. -/
structure Collides (db : EventData RoomId Pdu) (row row' : TopoRow) : Prop where
  same : row.2 = row'.2
  stored : ∃ json pdu, db.eventidPdu row.2 = some json ∧ db.fromJsonSlice json = .ok pdu
  placed : ∃ n i bytes m, count row.1 = .normal n ∧ count row'.1 = .backfilled i ∧ n = Words.I64.unsignedAbs i ∧
    db.eventidMetadata row.2 = some bytes ∧ db.fromBincode bytes = some m ∧ m.isOutlier = false ∧
    m.pduCount = some n ∧ m.deprecatedLocalTopoDepth = depth row.1 ∧ depth row'.1 = depth row.1
  canonical : db.eventidPduid row.2 = some (topoKeyToPduId row'.1)

theorem Collides.live {row row' : TopoRow} (h : Collides db row row') : db.Live row ∧ db.Live row' := by
  obtain ⟨hsame, hstored, hplaced, hcanonical⟩ := h
  obtain ⟨n, i, bytes, m, hn, hi, hni, hbytes, hm, houtlier, hcount, hdepth, hdepth'⟩ := hplaced
  constructor
  · refine ⟨hstored, ⟨bytes, m, hbytes, hm, ?_⟩, fun j hj => ?_⟩
    · simp [matchesTimelinePosition, houtlier, hdepth, hn, hcount]
    · rw [hn] at hj
      cases hj
  · rw [hsame] at hstored hbytes hcanonical
    refine ⟨hstored, ⟨bytes, m, hbytes, hm, ?_⟩, fun j _ => hcanonical⟩
    simp [matchesTimelinePosition, houtlier, hdepth, hdepth', hi, hcount, hni]

theorem matchesTimelinePosition_iff {m : TopoScans.EventMetadata} {d : UInt64} {c : Count} :
    matchesTimelinePosition m d c = true ↔ m.isOutlier = false ∧ m.deprecatedLocalTopoDepth = d ∧
      match c with
      | .normal i => m.pduCount = some i
      | .backfilled n => ∀ legacy, m.pduCount = some legacy → legacy = Words.I64.unsignedAbs n := by
  unfold matchesTimelinePosition
  cases c with
  | normal i => simp [and_assoc]
  | backfilled n => cases m.pduCount <;> simp [and_assoc]

/-- Two live rows of one event in a room are one row, or collide. -/
theorem live_unique {row row' : TopoRow} (hlive : db.Live row) (hlive' : db.Live row')
    (hroom : topoRoom row.1 = topoRoom row'.1) (hsame : row.2 = row'.2) :
    row.1 = row'.1 ∨ Collides db row row' ∨ Collides db row' row := by
  obtain ⟨bytes, m, hbytes, hm, hmatch⟩ := hlive.placed
  obtain ⟨bytes', m', hbytes', hm', hmatch'⟩ := hlive'.placed
  have hbytes₂ := hbytes
  rw [hsame, hbytes', Option.some.injEq] at hbytes₂
  subst hbytes₂
  rw [hm', Option.some.injEq] at hm
  subst hm
  obtain ⟨houtlier, hdepth, hcount⟩ := matchesTimelinePosition_iff.mp hmatch
  obtain ⟨-, hdepth', hcount'⟩ := matchesTimelinePosition_iff.mp hmatch'
  have hdepths : depth row.1 = depth row'.1 := hdepth.symm.trans hdepth'
  have hplace : count row.1 = count row'.1 → row.1 = row'.1 := by
    intro hc
    have hp : place row.1 = place row'.1 := by rw [place, place, hdepths, hc]
    exact le_antisymm ((le_iff_place hroom).mpr hp.le) ((le_iff_place hroom.symm).mpr hp.ge)
  cases hn : count row.1 with
  | normal n =>
    cases hn' : count row'.1 with
    | normal n' =>
      -- Live counts are told exactly.
      rw [hn] at hcount
      rw [hn'] at hcount'
      refine Or.inl (hplace ?_)
      rw [hn, hn', Option.some.inj (hcount.symm.trans hcount')]
    | backfilled i =>
      rw [hn] at hcount
      rw [hn'] at hcount'
      refine Or.inr (Or.inl ⟨hsame, hlive.stored, ?_, ?_⟩)
      · exact ⟨n, i, _, _, hn, hn', hcount' n hcount, hbytes, hm', houtlier, hcount, hdepth, hdepths.symm⟩
      · rw [hsame]
        exact hlive'.canonical i hn'
  | backfilled i =>
    cases hn' : count row'.1 with
    | normal n =>
      rw [hn] at hcount
      rw [hn'] at hcount'
      refine Or.inr (Or.inr ⟨hsame.symm, hlive'.stored, ?_, ?_⟩)
      · exact ⟨n, i, _, _, hn', hn, hcount n hcount', hbytes', hm', houtlier, hcount', hdepth', hdepths⟩
      · rw [← hsame]
        exact hlive.canonical i hn
    | backfilled i' =>
      -- Both are the position of the event.
      have hp := hlive.canonical i hn
      rw [hsame, hlive'.canonical i' hn', Option.some.injEq] at hp
      refine Or.inl (hplace ?_)
      rw [count, count, hp]

end

/-! ## Passes -/

section
variable {RoomId Pdu : Type} {db : EventData RoomId Pdu}

/-- No two rows that a pass goes over, and that a legacy token leaves in, collide. -/
def NoCollision (db : EventData RoomId Pdu) (keep : Count → Bool) (rows : List TopoRow) : Prop :=
  ∀ row ∈ rows, ∀ row' ∈ rows, keep (count row.1) = true → keep (count row'.1) = true → ¬ Collides db row row'

theorem nodup_yielded_iff {keep : Count → Bool} {rows : List TopoRow} {short : UInt64}
    (hroom : ∀ row ∈ rows, topoRoom row.1 = short) (hkeys : rows.Pairwise fun a b => a.1 ≠ b.1) :
    (rows.filterMap (db.yieldOf keep)).Nodup ↔ NoCollision db keep rows := by
  rw [List.Nodup, List.pairwise_filterMap]
  constructor
  · intro hall row hrow row' hrow' hkeep hkeep' hcollides
    obtain ⟨hlive, hlive'⟩ := hcollides.live
    have hne : row ≠ row' := by
      rintro rfl
      obtain ⟨n, i, -, -, hn, hi, -⟩ := hcollides.placed
      rw [hn] at hi
      cases hi
    have hsymm : Std.Symm fun a b : TopoRow =>
        ∀ x, db.yieldOf keep a = some x → ∀ y, db.yieldOf keep b = some y → x ≠ y :=
      ⟨fun a b hab x hx y hy heq => hab y hy x hx heq.symm⟩
    exact hall.forall hrow hrow' hne _ (EventData.yieldOf_eq_some_iff.mpr ⟨hlive, hkeep, rfl⟩) _
      (EventData.yieldOf_eq_some_iff.mpr ⟨hlive', hkeep', rfl⟩) hcollides.same
  · intro hno
    refine hkeys.imp_of_mem fun {a b} ha hb hne x hx y hy heq => ?_
    obtain ⟨hlive, hkeep, rfl⟩ := EventData.yieldOf_eq_some_iff.mp hx
    obtain ⟨hlive', hkeep', rfl⟩ := EventData.yieldOf_eq_some_iff.mp hy
    rcases live_unique hlive hlive' ((hroom a ha).trans (hroom b hb).symm) heq with hkey | hcol | hcol
    · exact hne hkey
    · exact hno a ha b hb hkeep hkeep' hcol
    · exact hno b hb a ha hkeep' hkeep hcol

theorem topoRowsRev_room (db : EventData RoomId Pdu) (short : UInt64) (token : TopoToken) :
    (∀ row ∈ db.topoRowsRev short token, topoRoom row.1 = short) ∧
      (db.topoRowsRev short token).Pairwise fun a b => a.1 ≠ b.1 := by
  unfold TopoData.topoRowsRev
  refine ⟨fun row hrow => (inRoom_iff short row.1).mp
    (List.mem_takeWhile_imp (p := fun row : TopoRow => TopoData.inRoom short row.1) hrow), ?_⟩
  refine List.Pairwise.sublist ((List.takeWhile_sublist _).trans List.filter_sublist) ?_
  exact (SortedMap.pairwise_revScanFrom _ _).imp fun h => ne_of_gt h

theorem topoRows_room (db : EventData RoomId Pdu) (short : UInt64) (token : TopoToken) :
    (∀ row ∈ db.topoRows short token, topoRoom row.1 = short) ∧
      (db.topoRows short token).Pairwise fun a b => a.1 ≠ b.1 := by
  unfold TopoData.topoRows
  refine ⟨fun row hrow => (inRoom_iff short row.1).mp
    (List.mem_takeWhile_imp (p := fun row : TopoRow => TopoData.inRoom short row.1) hrow), ?_⟩
  exact ((SortedMap.pairwise_scanFrom _ _).imp fun h => ne_of_lt h).sublist (List.takeWhile_sublist _)

/-- A pass over a room yields every event id at most once exactly when no two of the rows that
it goes over collide. -/
theorem topo_pass_once_iff (db : EventData RoomId Pdu) (roomId : RoomId) (token : TopoToken) :
    ((db.yieldedIds (db.topoPdusRev roomId token)).Nodup ↔ ∀ short, db.getShortroomid roomId = .ok short →
      NoCollision db (EventData.belowCeiling token) (db.topoRowsRev short token)) ∧
    ((db.yieldedIds (db.topoPdus roomId token)).Nodup ↔ ∀ short, db.getShortroomid roomId = .ok short →
      NoCollision db (EventData.aboveFloor token) (db.topoRows short token)) := by
  unfold EventData.topoPdusRev EventData.topoPdus
  cases hshort : db.getShortroomid roomId with
  | error e => exact ⟨iff_of_true List.nodup_nil nofun, iff_of_true List.nodup_nil nofun⟩
  | ok short =>
    obtain ⟨hrev, hrevKeys⟩ := topoRowsRev_room db short token
    obtain ⟨hfwd, hfwdKeys⟩ := topoRows_room db short token
    dsimp only
    rw [EventData.yieldedIds_pass, EventData.yieldedIds_pass, nodup_yielded_iff hrev hrevKeys,
      nodup_yielded_iff hfwd hfwdKeys]
    refine ⟨⟨?_, fun h => h short rfl⟩, ⟨?_, fun h => h short rfl⟩⟩
    · rintro h _ ⟨⟩
      exact h
    · rintro h _ ⟨⟩
      exact h

end

/-! ## A stale row of an event in the legacy encoding -/

/-- One event of room 1, backfilled at -3 with the number 3 in its metadata, and a stale row
of it at the live count 3. -/
def staleData : EventData Unit Bytes where
  getShortroomid _ := .ok 1
  debugRoom _ := "()"
  roomPducountEventid := .empty
  eventidPdu id := some id
  fromJsonSlice json := .ok json
  roomidTopologicalorderPducount :=
    (SortedMap.empty.insert (topoPducountKey (.ofId ⟨1, .backfilled (-3)⟩) 5) [36]).insert
      (topoPducountKey (.ofId ⟨1, .normal 3⟩) 5) [36]
  eventidMetadata id := some id
  fromBincode _ := some ⟨false, 5, 5, some 3⟩
  eventidPduid _ := some (.ofId ⟨1, .backfilled (-3)⟩)
  eventId pdu := pdu
  own := by
    rintro id _ _ ⟨⟩ ⟨⟩
    rfl

def pageToken : ConcreteToken := ⟨⟨9, .normal 7⟩, by decide, by decide, by decide⟩

theorem depth_key (p : RawId) (d : UInt64) : depth (topoPducountKey p d) = d := by
  rw [depth, timelineKey_topoPducountKey]

theorem count_key (short : UInt64) (c : Count) (d : UInt64) :
    count (topoPducountKey (.ofId ⟨short, c⟩) d) = .fromSigned c.intoSigned := by
  rw [count, topoKeyToPduId_topoPducountKey, RawId.pduCount, RawId.toId_ofId]

def staleRow (c : Count) : TopoRow := (topoPducountKey (.ofId ⟨1, c⟩) 5, [36])

theorem staleRow_mem {c : Count} (hc : c = .normal 3 ∨ c = .backfilled (-3)) :
    staleRow c ∈ staleData.topoRowsRev 1 pageToken.token := by
  have hkeys : topoPducountKey (.ofId ⟨1, .backfilled (-3)⟩) 5 ≠ topoPducountKey (.ofId ⟨1, .normal 3⟩) 5 := by
    intro h
    have hcount := congrArg count h
    rw [count_key, count_key] at hcount
    exact absurd hcount (by decide)
  refine (mem_topoRowsRev staleData.toTopoData 1 pageToken (staleRow c)).mpr ⟨?_, topoRoom_key 1 5 c, ?_⟩
  · refine SortedMap.mem_insert.mpr ?_
    rcases hc with rfl | rfl
    · exact Or.inl rfl
    · exact Or.inr ⟨SortedMap.mem_insert.mpr (Or.inl rfl), hkeys⟩
  · show place (topoPducountKey (.ofId ⟨1, c⟩) 5) ≤ _
    rw [place_key]
    refine Prod.Lex.toLex_le_toLex.mpr (Or.inl ?_)
    show 5 < 9
    decide

/-- Both rows are yielded. -/
theorem stale_row_yielded_twice : ¬ ∀ (db : EventData Unit Bytes) (roomId : Unit) (token : TopoToken),
    (db.yieldedIds (db.topoPdusRev roomId token)).Nodup := by
  intro h
  have hno : NoCollision staleData (EventData.belowCeiling pageToken.token)
      (staleData.topoRowsRev 1 pageToken.token) := by
    obtain ⟨hrooms, hkeys⟩ := topoRowsRev_room staleData 1 pageToken.token
    rw [← nodup_yielded_iff hrooms hkeys, ← EventData.yieldedIds_pass]
    exact h staleData () pageToken.token
  refine hno _ (staleRow_mem (Or.inl rfl)) _ (staleRow_mem (Or.inr rfl)) rfl rfl ⟨rfl, ⟨_, _, rfl, rfl⟩, ?_, ?_⟩
  · refine ⟨3, -3, _, _, count_key .., count_key .., rfl, rfl, rfl, rfl, rfl, ?_, ?_⟩
    · exact (depth_key _ _).symm
    · exact (depth_key _ _).trans (depth_key _ _).symm
  · exact congrArg some (topoKeyToPduId_topoPducountKey _ _).symm

end Congruent.TopoPages
