import Congruent.Steps

/-!
# Operations of the handlers

The single operations the event handlers are made of, with what each of them
leaves in the log.
-/

namespace Congruent

/-- A handler: a program over the stores that may fail. -/
abbrev H (A : Type) := Call HErr Server A

namespace H

variable (plat : Platform)

def read {A : Type} (f : Server → A) : H A := Call.read f

/-- What the rest of the world answers now. -/
def ask {A : Type} (f : World → A) : H A := Call.act fun s => (.ok (f (s.world s.clock)), Write.tick.apply plat s)

def write (w : Write) : H Unit := Call.modify (w.apply plat)

def note (m : Mark) : H Unit := write plat (.note m)

/-- An error or an answer, without an operation. -/
def lift {A : Type} : Except HErr A → H A
  | .ok a => pure a
  | .error e => throw e

def orElse {A : Type} (o : Option A) (e : HErr) : H A :=
  match o with
  | some a => pure a
  | none => throw e

/-- The id of a peer's event, and its JSON (`gen_event_id_canonical_json`). -/
def genEventIdCanonicalJson (room : RoomId) (v : RoomVersionId) (raw : RawPdu) : H (EventId × Object) :=
  match raw with
  | none => throw (.badServerResponse "Incoming event is not valid canonical JSON")
  | some value => match plat.genEventId v value with
    | .error e => throw e
    | .ok id => do
      note plat (.received room v id value)
      pure (id, value)

def verifyEventAt (site : Site) (room : RoomId) (v : RoomVersionId) (id : EventId) (value : Object) : H Verified :=
  Call.act fun s => match (s.world s.clock).verify v value with
    | .ok r => (.ok r, Write.tick.apply plat ((Write.note (.verified site room v id value r)).apply plat s))
    | .error e => (.error (.request e), Write.tick.apply plat s)

/-- Reads a stored event. -/
def getOutlierPduJson (room : RoomId) (id : EventId) : H (Option Object) :=
  Call.act fun s => match s.eventidPdu id with
    | some json => (.ok (some json), (Write.note (.readBack room id json)).apply plat s)
    | none => (.ok none, s)

def addPduOutlier (room : RoomId) (id : EventId) (json : Object) : H Unit :=
  write plat (.addPduOutlier room id json)

def markEventRejected (id : EventId) (code : RejectionCode) : H Unit := write plat (.markEventRejected id code)

def partialServer (room : RoomId) : H Bool := ask plat fun w => w.partialServer room

def authEventPoisons (id : EventId) (room : RoomId) : H Bool := do
  if !(← read fun s => s.isEventPermanentlyRejected id) then pure false
  else
    let code ← read fun s => s.rejection id
    if code = some .authCheckFailed then pure (!(← partialServer plat room)) else pure true

end H

/-! ## Reading events -/

section
variable (plat : Platform)

/-- `str::replacen('$', "!", 1)`. -/
def hashRoomId (id : EventId) : String :=
  String.ofList (match id.toList.span (· ≠ '$') with
    | (a, _ :: b) => a ++ '!' :: b
    | (a, []) => a)

/-- An event from its JSON (`from_id_val`), in the room it is expected in. -/
def fromIdVal (id : EventId) (json : Object) (room : RoomId) : Except HErr Pdu :=
  match plat.decodePdu (json.insert "event_id" (.str id)) with
  | .error e => .error (.request e)
  | .ok pdu =>
    let pdu := { pdu with eventId := id }
    if 255 < pdu.kind.asStr.length then .error (.request "Event type is too long")
    else if 255 < (pdu.stateKey.getD "").length then .error (.request "State key is too long")
    else
      let constructed := match pdu.roomId with
        | some r => Except.ok (some r)
        | none => if pdu.kind = EventType.roomCreate then match plat.parseRoomId (hashRoomId id) with
            | some r => .ok (some r)
            | none => .error (HErr.request "Invalid event_id for room hash derivation")
          else .ok (some room)
      match constructed with
      | .error e => .error e
      | .ok r =>
        let pdu := { pdu with roomId := r }
        if pdu.roomIdOrHash plat.codec = some room then .ok pdu
        else .error (.request ("PDU " ++ id ++ " does not belong to room " ++ room))

def checkRoomId (room : RoomId) (pdu : Pdu) : Except HErr Unit :=
  match pdu.roomIdOrHash plat.codec with
  | some r => if r = room then .ok () else
      .error (.request "PDU room_id mismatch: event belongs to a different room than expected")
  | none => .ok ()

def getRoomVersionId (create : Pdu) : Except HErr RoomVersionId :=
  match plat.codec.roomCreate create.content with
  | .ok content => .ok content.roomVersion
  | .error e => .error (.request (plat.codec.errorText e))

/-- Whether an event is small enough. -/
def pduFits (value : Object) : Bool :=
  let fits (key : String) : Bool := match value.get key with
    | some (.str s) => s.utf8ByteSize ≤ 1024
    | _ => true
  fits "room_id" && fits "event_id" && fits "sender" && fits "type" && fits "state_key" &&
    plat.textLength value ≤ 65535

/-- What a peer attached to an event, without what only this server may say. -/
def cleanUnsigned (unsigned : Object) : Object :=
  ((unsigned.remove "prev_content").remove "prev_sender").remove "replaces_state"

end

/-! ## What they ensure -/

namespace H

variable {plat : Platform} {s : Server} {A : Type} {T : Server → Server → Prop}

theorem step (w : Write) {s : Server} (h : w.Allowed plat s) : Path plat s (w.apply plat s) :=
  .single (.write s w h)

theorem exec_read {B : Type} (f : Server → A) (k : A → H B) : (read f >>= k).exec s = (k (f s)).exec s := rfl

theorem exec_ask {B : Type} (f : World → A) (k : A → H B) :
    (ask plat f >>= k).exec s = (k (f (s.world s.clock))).exec (Write.tick.apply plat s) := rfl

theorem exec_lift {r : Except HErr A} {s' : Server} {a : A} (h : (lift r).exec s = (.ok a, s')) : r =
    .ok a ∧ s' = s := by
  cases r with
  | ok b =>
    cases h
    exact ⟨rfl, rfl⟩
  | error e => cases h

theorem read_keeps (f : Server → A) : Call.Keeps T (read f) s := Call.Ensures.read

theorem ask_of_tick (hT : ∀ s, T s (Write.tick.apply plat s)) (f : World → A) : Call.Keeps T (ask plat f) s :=
  Call.Ensures.act fun s' _ => ⟨.single (hT s'), fun _ _ _ _ => trivial⟩

theorem lift_keeps (r : Except HErr A) : Call.Keeps T (lift r) s := by
  cases r with
  | ok a => exact Call.Ensures.pure fun _ _ => trivial
  | error e => exact Call.Ensures.throw

theorem orElse_keeps (o : Option A) (e : HErr) : Call.Keeps T (orElse o e) s := by
  cases o with
  | some a => exact Call.Ensures.pure fun _ _ => trivial
  | none => exact Call.Ensures.throw

theorem pure_keeps (a : A) : Call.Keeps T (pure a : H A) s := Call.Ensures.pure fun _ _ => trivial

theorem write_keeps {w : Write} (h : ∀ s', Path plat s s' → w.Allowed plat s') :
    Call.Keeps (Step plat) (write plat w) s :=
  Call.Ensures.modify fun s' hr => step w (h s' hr)

variable [Grows T] [Admits plat T]

variable (plat) in
theorem quietly (w : Write) (hq : w.quiet = true) {s : Server} (h : w.Allowed plat s) :
    Relation.ReflTransGen T s (w.apply plat s) :=
  .single (Admits.write w hq h)

theorem ask_keeps (f : World → A) : Call.Keeps T (ask plat f) s :=
  ask_of_tick (fun _ => Admits.write .tick rfl trivial) f

theorem quiet_keeps {w : Write} (hq : w.quiet = true)
    (h : ∀ s', Relation.ReflTransGen T s s' → w.Allowed plat s') : Call.Keeps T (write plat w) s :=
  Call.Ensures.modify fun s' hr => quietly plat w hq (h s' hr)

theorem note_ensures {m : Mark} (h : ∀ s', Relation.ReflTransGen T s s' → m.Allowed plat s') :
    Call.Ensures T (fun _ s => m ∈ s.log) (note plat m) s :=
  Call.Ensures.act fun s' hr => ⟨quietly plat (.note m) rfl (h s' hr), fun _ _ _ hr' => Grows.path hr'
    (List.mem_cons_self ..)⟩

theorem genEventId_ensures (room : RoomId) (v : RoomVersionId) (raw : RawPdu) :
    Call.Ensures T (fun r s => Taken s.log room r.1 r.2) (genEventIdCanonicalJson plat room v raw) s := by
  unfold genEventIdCanonicalJson
  split
  · exact Call.Ensures.throw
  · split
    · exact Call.Ensures.throw
    · next hg =>
      refine (note_ensures (m := .received room v _ _) fun _ _ => hg).bind fun _ s' _ hm => ?_
      exact Call.Ensures.pure fun s'' hr => .received v (Grows.path hr hm)

theorem verifyEventAt_ensures (site : Site) (room : RoomId) (v : RoomVersionId) (id : EventId) (value : Object) :
    Call.Ensures T (fun r s => .verified site room v id value r ∈ s.log)
      (verifyEventAt plat site room v id value) s := by
  refine Call.Ensures.act fun s' _ => ?_
  cases hv : (s'.world s'.clock).verify v value with
  | ok r =>
    simp only
    refine ⟨(quietly plat (.note (.verified site room v id value r)) rfl hv).trans (quietly plat .tick rfl trivial),
      fun a ha s'' hr => ?_⟩
    cases ha
    exact Grows.path hr (List.mem_cons_self ..)
  | error e => exact ⟨quietly plat .tick rfl trivial, fun a ha => by cases ha⟩

theorem getOutlierPduJson_ensures (room : RoomId) (id : EventId) :
    Call.Ensures T (fun r s => ∀ json, r = some json → .readBack room id json ∈ s.log)
      (getOutlierPduJson plat room id) s := by
  refine Call.Ensures.act fun s' _ => ?_
  cases he : s'.eventidPdu id with
  | some json =>
    simp only
    refine ⟨quietly plat (.note _) rfl he, fun a ha s'' hr json' hj => ?_⟩
    cases ha
    cases hj
    exact Grows.path hr (List.mem_cons_self ..)
  | none => exact ⟨.refl, fun a ha s'' _ json' hj => by cases ha; cases hj⟩

theorem addPduOutlier_keeps {room : RoomId} {id : EventId} {json : Object} (h : Traced plat s.log room id json) :
    Call.Keeps T (addPduOutlier plat room id json) s :=
  quiet_keeps rfl fun _ hr => h.mono fun _ hm => Grows.path hr hm

theorem markEventRejected_keeps (id : EventId) (code : RejectionCode) :
    Call.Keeps T (markEventRejected plat id code) s :=
  quiet_keeps rfl fun _ _ => trivial

theorem partialServer_keeps (room : RoomId) : Call.Keeps T (partialServer plat room) s :=
  ask_keeps _

theorem authEventPoisons_keeps (id : EventId) (room : RoomId) :
    Call.Keeps T (authEventPoisons plat id room) s := by
  unfold authEventPoisons
  refine (read_keeps _).andThen fun b => ?_
  split
  · exact pure_keeps _
  · refine (read_keeps _).andThen fun code => ?_
    split
    · exact (partialServer_keeps room).andThen fun _ => pure_keeps _
    · exact pure_keeps _

end H

end Congruent
