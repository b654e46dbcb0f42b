import Congruent.Event
import Congruent.RawIds

/-!
# Lookups of events (`get_pdu_in_room`, `get_pdus_in_room_batch` of `timeline/data.rs`)

One event is read by its id. A batch reads the events of the timeline by their positions and
the others by their ids, and puts the results back in the order that was asked for.
-/

namespace Congruent.BatchLookups

open Store (Bytes)

inductive LookupError where
  /-- A key that a table does not have. -/
  | missing
  | deserialize (message : String)
  | database (message : String)
  | requestNotFound (message : String)
  deriving DecidableEq

structure Data where
  codec : Codec
  getShortroomid : RoomId → Option UInt64
  eventidPduid : EventId → Option RawId
  roomPducountEventid : RawId → Option EventId
  eventidPdu : EventId → Option Bytes
  /-- `deserialized::<PduEvent>`. -/
  deserialized : Bytes → Except String Pdu
  /-- `{actual_room:?}`. -/
  debugRoom : Option RoomId → String

/-- `Map::get`. -/
def get {K V : Type} (table : K → Option V) (key : K) : Except LookupError V :=
  match table key with
  | some value => .ok value
  | none => .error .missing

namespace Data

variable (db : Data)

def readPdu (eventId : EventId) : Except LookupError Pdu :=
  match get db.eventidPdu eventId with
  | .error e => .error e
  | .ok handle =>
    match db.deserialized handle with
    | .ok pdu => .ok pdu
    | .error e => .error (.deserialize e)

def getPduInRoom (roomId : Option RoomId) (eventId : EventId) : Except LookupError Pdu :=
  match db.readPdu eventId with
  | .error e => .error e
  | .ok pdu =>
    match roomId with
    | none => .ok pdu
    | some expectedRoom =>
      let actualRoom := pdu.roomIdOrHash db.codec
      if actualRoom ≠ some expectedRoom then
        .error (.database ("PDU " ++ eventId ++ " does belong to room " ++ db.debugRoom
          actualRoom ++ " (expected " ++
          expectedRoom ++ ")"))
      else .ok pdu

/-! ## Batches -/

/-- Validates that an event belongs to a room; the match of the short ids decides about those
that do not say their room. -/
def checkRoomBoundary (pdu : Pdu) (expectedRoom : Option RoomId) (shortroomidMatch : Option Bool) :
    Except LookupError Pdu :=
  match expectedRoom with
  | none => .ok pdu
  | some expectedRoom =>
    match pdu.roomIdOrHash db.codec with
    | some actualRoom =>
      if actualRoom ≠ expectedRoom then
        .error (.database ("PDU " ++ pdu.eventId ++ " belongs to room " ++ actualRoom ++ " (expected " ++
          expectedRoom ++ ")"))
      else .ok pdu
    | none =>
      match shortroomidMatch with
      | some false => .error (.database ("PDU " ++ pdu.eventId ++ " does not belong to room " ++ expectedRoom))
      | _ => .ok pdu

def resolvePdu (pduId : RawId) : Except LookupError Pdu :=
  match get db.roomPducountEventid pduId with
  | .ok eventId => db.readPdu eventId
  | .error e => .error e

def resolvePduBatch (pduIds : List RawId) : List (Except LookupError Pdu) :=
  if pduIds.isEmpty then [] else pduIds.map db.resolvePdu

/-- The positions that were found, and the ids that have none. -/
def separate : List EventId → List (Except LookupError RawId) → List RawId × List EventId
  | eventId :: eventIds, pduIdRes :: rest =>
    let (validPduIds, missingEventIds) := separate eventIds rest
    match pduIdRes with
    | .ok pduId => (pduId :: validPduIds, missingEventIds)
    | .error _ => (validPduIds, eventId :: missingEventIds)
  | _, _ => ([], [])

def timelineResult (roomId : Option RoomId) (expectedShortroomid : Option UInt64) (pduId : RawId) :
    Except LookupError Pdu → Except LookupError Pdu
  | .ok pdu =>
    db.checkRoomBoundary pdu roomId (expectedShortroomid.map fun s => decide (pduId.shortroomid = beBytes s))
  | .error e => .error e

def outlierResult (roomId : Option RoomId) : Except LookupError Pdu → Except LookupError Pdu
  | .ok pdu => db.checkRoomBoundary pdu roomId none
  | .error _ => .error (.requestNotFound "PDU not found in timeline or outliers")

/-- The results in the order of the ids; none if an iterator ends too early. -/
def reassemble (roomId : Option RoomId) (expectedShortroomid : Option UInt64) :
    List (Except LookupError RawId) → List (Except LookupError Pdu) → List (Except LookupError Pdu) →
      Option (List (Except LookupError Pdu))
  | [], _, _ => some []
  | .ok pduId :: rest, pdu :: pdus, outliers =>
    (reassemble roomId expectedShortroomid rest pdus outliers).map
      (db.timelineResult roomId expectedShortroomid pduId pdu :: ·)
  | .error _ :: rest, pdus, outlier :: outliers =>
    (reassemble roomId expectedShortroomid rest pdus outliers).map (db.outlierResult roomId outlier :: ·)
  | _, _, _ => none

def getPdusInRoomBatch (roomId : Option RoomId) (eventIds : List EventId) :
    Option (List (Except LookupError Pdu)) :=
  let expectedShortroomid := roomId.bind db.getShortroomid
  let pduIds := eventIds.map (get db.eventidPduid)
  let (validPduIds, missingEventIds) := separate eventIds pduIds
  let pduEvents := db.resolvePduBatch validPduIds
  let outlierEvents := missingEventIds.map db.readPdu
  db.reassemble roomId expectedShortroomid pduIds pduEvents outlierEvents

end Data

/-- A database whose tables of positions are inverse to each other. -/
abbrev PlacedData := { db : Data // ∀ id raw, db.eventidPduid id = some raw ↔ db.roomPducountEventid raw = some id }

/-! ## One result for each id -/

section
variable (db : Data)

def batchResult (roomId : Option RoomId) (eventId : EventId) : Except LookupError Pdu :=
  match get db.eventidPduid eventId with
  | .ok pduId => db.timelineResult roomId (roomId.bind db.getShortroomid) pduId (db.resolvePdu pduId)
  | .error _ => db.outlierResult roomId (db.readPdu eventId)

theorem resolvePduBatch_eq (pduIds : List RawId) : db.resolvePduBatch pduIds = pduIds.map db.resolvePdu := by
  cases pduIds <;> rfl

theorem reassemble_eq (roomId : Option RoomId) (eventIds : List EventId) :
    let pduIds := eventIds.map (get db.eventidPduid)
    let found := Data.separate eventIds pduIds
    db.reassemble roomId (roomId.bind db.getShortroomid) pduIds (found.1.map db.resolvePdu)
      (found.2.map db.readPdu) = some (eventIds.map (batchResult db roomId)) := by
  induction eventIds with
  | nil => rfl
  | cons eventId eventIds ih =>
    rw [List.map_cons, List.map_cons]
    unfold Data.separate batchResult
    cases get db.eventidPduid eventId with
    | ok pduId =>
      unfold Data.reassemble
      simp only [List.map_cons]
      rw [ih]
      rfl
    | error e =>
      unfold Data.reassemble
      simp only [List.map_cons]
      rw [ih]
      rfl

theorem getPdusInRoomBatch_eq (roomId : Option RoomId) (eventIds : List EventId) :
    db.getPdusInRoomBatch roomId eventIds = some (eventIds.map (batchResult db roomId)) := by
  rw [← reassemble_eq]
  unfold Data.getPdusInRoomBatch
  simp only [resolvePduBatch_eq]

end

/-! ## Which events are returned -/

section
variable {db : Data} {roomId : Option RoomId} {id : EventId} {pdu pdu' : Pdu}

/-- The event does not say which room it belongs to, and a room is asked for. -/
def Roomless (db : Data) (roomId : Option RoomId) (pdu : Pdu) : Prop :=
  roomId ≠ none ∧ pdu.roomIdOrHash db.codec = none

/-- Whether the event belongs to the room that is asked for. -/
def InRoom (db : Data) (roomId : Option RoomId) (pdu : Pdu) : Prop :=
  ∀ room ∈ roomId, pdu.roomIdOrHash db.codec = some room

theorem getPduInRoom_eq_ok_iff :
    db.getPduInRoom roomId id = .ok pdu ↔ db.readPdu id = .ok pdu ∧ InRoom db roomId pdu := by
  unfold Data.getPduInRoom InRoom
  cases db.readPdu id with
  | error e => exact iff_of_false nofun (fun h => nomatch h.1)
  | ok stored =>
    cases roomId with
    | none => simp
    | some room =>
      by_cases hroom : stored.roomIdOrHash db.codec = some room
      · simp only [hroom, ne_eq, not_true_eq_false, if_false]
        constructor
        · intro h
          cases h
          exact ⟨rfl, fun room' hroom' => by rwa [← Option.mem_some.mp hroom']⟩
        · exact fun h => h.1
      · simp only [ne_eq, hroom, not_false_eq_true, if_true]
        refine iff_of_false nofun ?_
        rintro ⟨h, hin⟩
        cases h
        exact hroom (hin room rfl)

theorem checkRoomBoundary_eq_ok_iff {shortroomidMatch : Option Bool} :
    db.checkRoomBoundary pdu roomId shortroomidMatch = .ok pdu' ↔ pdu = pdu' ∧
      (InRoom db roomId pdu ∨ Roomless db roomId pdu ∧ shortroomidMatch ≠ some false) := by
  unfold Data.checkRoomBoundary InRoom Roomless
  cases roomId with
  | none => simp
  | some room =>
    cases hactual : pdu.roomIdOrHash db.codec with
    | some actual =>
      by_cases hroom : actual = room <;> simp [hroom]
    | none =>
      rcases shortroomidMatch with _ | _ | _ <;> simp

def shortroomidMatch (db : Data) (roomId : Option RoomId) (id : EventId) : Option Bool := do
  let pduId ← db.eventidPduid id
  let short ← roomId.bind db.getShortroomid
  return decide (pduId.shortroomid = beBytes short)

theorem batchResult_eq_ok_iff
    (hinverse : ∀ id raw, db.eventidPduid id = some raw ↔ db.roomPducountEventid raw = some id) :
    batchResult db roomId id = .ok pdu ↔ db.readPdu id = .ok pdu ∧
      (InRoom db roomId pdu ∨ Roomless db roomId pdu ∧ shortroomidMatch db roomId id ≠ some false) := by
  unfold batchResult get shortroomidMatch
  cases hraw : db.eventidPduid id with
  | none =>
    simp only
    cases hread : db.readPdu id with
    | error e => exact iff_of_false nofun (fun h => nomatch h.1)
    | ok stored =>
      show db.checkRoomBoundary stored roomId none = .ok pdu ↔ _
      rw [checkRoomBoundary_eq_ok_iff, Except.ok.injEq]
      exact and_congr_right fun h => by subst h; rfl
  | some pduId =>
    have hresolve : db.resolvePdu pduId = db.readPdu id := by
      unfold Data.resolvePdu get
      rw [(hinverse id pduId).mp hraw]
    simp only [hresolve]
    cases hread : db.readPdu id with
    | error e => exact iff_of_false nofun (fun h => nomatch h.1)
    | ok stored =>
      show db.checkRoomBoundary stored roomId _ = .ok pdu ↔ _
      rw [checkRoomBoundary_eq_ok_iff, Except.ok.injEq]
      refine and_congr_right fun h => ?_
      subst h
      cases roomId.bind db.getShortroomid <;> rfl

theorem not_inRoom_of_roomless (h : Roomless db roomId pdu) : ¬InRoom db roomId pdu := by
  obtain ⟨hroom, hnone⟩ := h
  intro hin
  obtain ⟨room, hroom⟩ := Option.ne_none_iff_exists'.mp hroom
  rw [hin room hroom] at hnone
  exact nomatch hnone

/-- The two lookups of an id agree just when the short ids tell the batch that an event
which does not say its room is not of the room asked for. -/
theorem batchResult_agrees_iff
    (hinverse : ∀ id raw, db.eventidPduid id = some raw ↔ db.roomPducountEventid raw = some id) :
    (∀ pdu, batchResult db roomId id = .ok pdu ↔ db.getPduInRoom roomId id = .ok pdu) ↔
      ∀ stored, db.readPdu id = .ok stored → Roomless db roomId stored →
        shortroomidMatch db roomId id = some false := by
  simp only [batchResult_eq_ok_iff hinverse, getPduInRoom_eq_ok_iff]
  constructor
  · intro h stored hread hroomless
    by_contra hmatch
    exact not_inRoom_of_roomless hroomless ((h stored).mp ⟨hread, .inr ⟨hroomless, hmatch⟩⟩).2
  · intro h pdu
    exact and_congr_right fun hread => or_iff_left fun hroomless => hroomless.2 (h pdu hread hroomless.1)

end

/-- A batch gives for each id what the lookup of the id gives just when each event asked for
that does not say its room stands in the timeline at a position of another room. -/
theorem batch_agrees_iff (db : PlacedData) (roomId : Option RoomId) (eventIds : List EventId) :
    (∃ results, db.1.getPdusInRoomBatch roomId eventIds = some results ∧ results.length = eventIds.length ∧
      ∀ (i : Nat) (id : EventId), eventIds[i]? = some id →
        ∀ pdu, results[i]? = some (.ok pdu) ↔ db.1.getPduInRoom roomId id = .ok pdu) ↔
      ∀ id ∈ eventIds, ∀ stored, db.1.readPdu id = .ok stored → Roomless db.1 roomId stored →
        shortroomidMatch db.1 roomId id = some false := by
  have hresult : ∀ {i : Nat} {id : EventId}, eventIds[i]? = some id → ∀ pdu,
      ((eventIds.map (batchResult db.1 roomId))[i]? = some (.ok pdu) ↔ batchResult db.1 roomId id = .ok pdu) := by
    intro i id hid pdu
    rw [List.getElem?_map, hid, Option.map_some, Option.some.injEq]
  constructor
  · rintro ⟨results, hbatch, -, hagree⟩ id hid
    cases (getPdusInRoomBatch_eq db.1 roomId eventIds).symm.trans hbatch
    obtain ⟨i, hi⟩ := List.mem_iff_getElem?.mp hid
    exact (batchResult_agrees_iff db.2).mp fun pdu => (hresult hi pdu).symm.trans (hagree i id hi pdu)
  · intro h
    refine ⟨_, getPdusInRoomBatch_eq db.1 roomId eventIds, List.length_map _, fun i id hid pdu => ?_⟩
    exact (hresult hid pdu).trans ((batchResult_agrees_iff db.2).mpr (h id (List.mem_of_getElem? hid)) pdu)

/-! ## An event that does not say its room -/

def message : Pdu := { stateEvent "$m" "@alice:a" (.other "m.room.message") "" [] [] with roomId := none }

/-- The event stands in the timeline of the room `!r:a`. -/
def messageData : Data where
  codec := .plain
  getShortroomid room := if room = "!r:a" then some 7 else none
  eventidPduid id := if id = "$m" then some (.ofId ⟨7, .normal 3⟩) else none
  roomPducountEventid raw := if raw = .ofId ⟨7, .normal 3⟩ then some "$m" else none
  eventidPdu id := if id = "$m" then some [] else none
  deserialized _ := .ok message
  debugRoom _ := "None"

theorem message_only_in_batch : (∀ id raw, messageData.eventidPduid id = some raw ↔
      messageData.roomPducountEventid raw = some id) ∧
    messageData.getPdusInRoomBatch (some "!r:a") ["$m"] = some [.ok message] ∧
    ∀ pdu, messageData.getPduInRoom (some "!r:a") "$m" ≠ .ok pdu := by
  refine ⟨fun id raw => ?_, rfl, fun pdu => ?_⟩
  · show (if id = "$m" then some (RawId.ofId ⟨7, .normal 3⟩) else none) = some raw ↔
      (if raw = RawId.ofId ⟨7, .normal 3⟩ then some "$m" else none) = some id
    rw [Option.ite_none_right_eq_some, Option.ite_none_right_eq_some, Option.some.injEq, Option.some.injEq,
      eq_comm (a := raw), eq_comm (a := id), and_comm]
  · have hread : messageData.readPdu "$m" = .ok message := rfl
    have hroomless : Roomless messageData (some "!r:a") message := ⟨nofun, rfl⟩
    rw [ne_eq, getPduInRoom_eq_ok_iff]
    rintro ⟨hread', hin⟩
    cases hread.symm.trans hread'
    exact not_inRoom_of_roomless hroomless hin

end Congruent.BatchLookups
