import Congruent.Federation
import Congruent.OutlierLockstep

/-!
# Rooms of a fetched state

The events of a state that the server lacks are fetched and checked for their room. Those
it already has are entered as they are stored, whatever their room.
-/

namespace Congruent

open H
open Call (Lockstep Same)

section
variable (plat : Platform)

/-! ## The two parts of `fetch_state` -/

def fetchUnknown (n : Nat) (origin : ServerName) (create : Pdu) (room : RoomId) (id : EventId)
    (skipSigVerify : Bool) :
    H (List EventId) := do
  let pool ← ask plat fun w => w.serverPool room origin
  let (server, authChain, state) ← askStateIds plat room id pool
  let ids := (authChain ++ state).filterMap plat.codec.parseEventId
  let missing ← read fun s => ids.filter fun eid => !s.pduExists eid
  let fetched ← (missing.dedup.insertionSort (· ≤ ·)).foldlM (fetchEvent plat server) []
  let v ← orElse (← ask plat fun w => w.roomVersion room) (.database "No room version")
  let unknown ← fetched.foldlM (parseFetched plat room v) []
  let events ← unknown.foldlM (checkFetched plat room v skipSigVerify) []
  let sorted := sortTimelineEvents (events.map fun e => ⟨e.1, e.2.1.authEvents, e.2.1.originServerTs, e.2.1.depth⟩)
  sorted.dedup.foldlM (handleFetched plat n origin create room v events) ()
  pure state

def stateMap (create : Pdu) (room : RoomId) (state : List EventId) : H Root := do
  let root ← state.foldlM (enterState plat room) ∅
  if root.lookup (.roomCreate, "") = some create.eventId then pure root
  else throw (.database "Incoming event refers to wrong create event.")

variable {plat} in
theorem fetchState_eq (n : Nat) (origin : ServerName) (create : Pdu) (room : RoomId) (id : EventId)
    (skipSigVerify : Bool) :
    fetchState plat n origin create room id skipSigVerify =
      fetchUnknown plat n origin create room id skipSigVerify >>= stateMap plat create room := by
  unfold fetchState fetchUnknown stateMap
  simp only [bind_assoc, pure_bind]

/-! ## Entries of the map -/

section
variable (room : RoomId) (s : Server)

def InRoom (key : TypeStateKey) (e : EventId) : Prop :=
  ∃ pdu, s.getPdu plat e = some pdu ∧ pdu.roomIdOrHash plat.codec = some room ∧ pdu.kind = key.1 ∧
    pdu.stateKey = some key.2 ∧ s.isEventRejected e = false

/-- The event is of the room, or rejected, and then the local event in its place is an
unrejected one under its own key. -/
structure Belongs (eid : EventId) : Prop where
  accepted : ∀ pdu key, s.getPdu plat eid = some pdu → pdu.stateKey = some key → s.isEventRejected eid = false →
    pdu.roomIdOrHash plat.codec = some room
  replaced : ∀ pdu key other, s.getPdu plat eid = some pdu → pdu.stateKey = some key →
    s.isEventRejected eid = true →
    s.roomStateGet plat room pdu.kind key = some other →
      other.kind = pdu.kind ∧ other.stateKey = some key ∧ s.isEventRejected other.eventId = false

def stateEntry (eid : EventId) : Option (TypeStateKey × EventId) :=
  (s.getPdu plat eid).bind fun pdu => pdu.stateKey.bind fun key =>
    (if s.isEventRejected eid then (s.roomStateGet plat room pdu.kind key).map (·.eventId) else some eid).map
      ((pdu.kind, key), ·)

end

end

section
variable {plat : Platform} {room : RoomId} {s s' : Server}

theorem stateTarget_exec (pdu : Pdu) (key : StateKey) (eid : EventId) :
    (stateTarget plat room pdu key eid (s.isEventRejected eid)).exec s =
      (.ok (if s.isEventRejected eid then (s.roomStateGet plat room pdu.kind key).map (·.eventId)
        else some eid), s) := by
  unfold stateTarget
  rw [exec_read]
  cases s.isEventRejected eid with
  | false => simp
  | true =>
    simp only [Bool.not_true, Bool.and_false, Bool.not_false, Bool.and_true, if_true]
    rfl

theorem enterState_ok {state state' : Root} {eid : EventId}
    (h : (enterState plat room state eid).exec s = (.ok state', s')) :
    s' = s ∧ match stateEntry plat room s eid with
      | none => state' = state
      | some (key, target) => state.lookup key = none ∧ state' = state.insert key target := by
  unfold enterState at h
  rw [exec_read] at h
  unfold stateEntry
  cases hpdu : s.getPdu plat eid with
  | none =>
    rw [hpdu] at h
    cases h
    exact ⟨rfl, rfl⟩
  | some pdu =>
    rw [hpdu] at h
    dsimp only at h
    rw [exec_read] at h
    rw [Option.bind_some]
    cases hkey : pdu.stateKey with
    | none =>
      rw [hkey] at h
      dsimp only at h
      split at h
      · cases h
        exact ⟨rfl, rfl⟩
      · cases h
    | some key =>
      rw [hkey] at h
      dsimp only at h
      rw [Call.exec_bind, stateTarget_exec] at h
      rw [Option.bind_some]
      dsimp only at h
      split at h
      · rename_i hnone
        cases h
        rw [hnone]
        exact ⟨rfl, rfl⟩
      · rename_i target htarget
        rw [htarget]
        dsimp only [Option.map_some]
        split at h
        · cases h
        · rename_i hfree
          cases h
          exact ⟨rfl, by simpa using hfree, rfl⟩

theorem enterStates_ok {ids : List EventId} {state root : Root}
    (h : (ids.foldlM (enterState plat room) state).exec s = (.ok root, s')) :
    s' = s ∧ ∀ key e, root.lookup key = some e ↔
      state.lookup key = some e ∨ ∃ eid ∈ ids, stateEntry plat room s eid = some (key, e) := by
  induction ids generalizing state with
  | nil =>
    cases h
    simp
  | cons eid ids ih =>
    rw [List.foldlM_cons] at h
    obtain ⟨state₁, s₁, hone, hrest⟩ := Call.exec_bind_ok h
    obtain ⟨rfl, hentry⟩ := enterState_ok hone
    obtain ⟨hs, hall⟩ := ih hrest
    refine ⟨hs, fun key e => ?_⟩
    rw [hall, List.exists_mem_cons_iff, ← or_assoc]
    apply or_congr_left
    cases hent : stateEntry plat room s₁ eid with
    | none =>
      rw [hent] at hentry
      obtain rfl : state₁ = state := hentry
      simp
    | some entry =>
      obtain ⟨key', target⟩ := entry
      rw [hent] at hentry
      obtain ⟨hfree, rfl⟩ : state.lookup key' = none ∧ state₁ = state.insert key' target := hentry
      by_cases hkey : key = key'
      · subst hkey
        rw [AList.lookup_insert, hfree]
        simp
      · rw [AList.lookup_insert_ne hkey]
        have hne : ¬ key' = key := fun heq => hkey heq.symm
        simp [hne]

theorem stateEntry_eq_some {eid e : EventId} {key : TypeStateKey} :
    stateEntry plat room s eid = some (key, e) ↔ ∃ pdu k, s.getPdu plat eid = some pdu ∧ pdu.stateKey = some k ∧
      key = (pdu.kind, k) ∧ ((s.isEventRejected eid = false ∧ e = eid) ∨
        (s.isEventRejected eid = true ∧
          ∃ other, s.roomStateGet plat room pdu.kind k = some other ∧ e = other.eventId)) := by
  unfold stateEntry
  cases hr : s.isEventRejected eid with
  | false =>
    simp only [Bool.false_eq_true, ↓reduceIte, Option.map_some, Option.bind_eq_some_iff,
      Option.some.injEq, Prod.mk.injEq,
      true_and, false_and, or_false]
    constructor
    · rintro ⟨pdu, hpdu, k, hk, rfl, rfl⟩
      exact ⟨pdu, k, hpdu, hk, rfl, rfl⟩
    · rintro ⟨pdu, k, hpdu, hk, rfl, rfl⟩
      exact ⟨pdu, hpdu, k, hk, rfl, rfl⟩
  | true =>
    simp only [↓reduceIte, Option.map_map, Option.bind_eq_some_iff, Option.map_eq_some_iff, Function.comp_apply,
      Prod.mk.injEq, Bool.true_eq_false, false_and, false_or, true_and]
    constructor
    · rintro ⟨pdu, hpdu, k, hk, other, hother, rfl, rfl⟩
      exact ⟨pdu, k, hpdu, hk, rfl, other, hother, rfl⟩
    · rintro ⟨pdu, k, hpdu, hk, rfl, other, hother, rfl⟩
      exact ⟨pdu, hpdu, k, hk, other, hother, rfl, rfl⟩

theorem roomStateGet_some {kind : EventType} {key : StateKey} {other : Pdu}
    (h : s.roomStateGet plat room kind key = some other) :
    s.getPdu plat other.eventId = some other ∧ other.roomIdOrHash plat.codec = some room := by
  unfold Server.roomStateGet at h
  obtain ⟨root, -, h⟩ := Option.bind_eq_some_iff.1 h
  obtain ⟨eid, -, h⟩ := Option.bind_eq_some_iff.1 h
  unfold Server.getPduInRoom at h
  obtain ⟨hget, hroom⟩ := Option.filter_eq_some_iff.1 h
  rw [getPdu_eventId hget]
  exact ⟨hget, by simpa using hroom⟩

theorem belongs_iff (eid : EventId) :
    Belongs plat room s eid ↔ ∀ key e, stateEntry plat room s eid = some (key, e) → InRoom plat room s key e := by
  constructor
  · rintro ⟨haccepted, hreplaced⟩ key e he
    obtain ⟨pdu, k, hpdu, hk, rfl, ⟨hr, rfl⟩ | ⟨hr, other, hother, rfl⟩⟩ := stateEntry_eq_some.1 he
    · exact ⟨pdu, hpdu, haccepted pdu k hpdu hk hr, rfl, hk, hr⟩
    · obtain ⟨hget, hroom⟩ := roomStateGet_some hother
      obtain ⟨hkind, hkey, hok⟩ := hreplaced pdu k other hpdu hk hr hother
      exact ⟨other, hget, hroom, hkind, hkey, hok⟩
  · intro hall
    constructor
    · intro pdu k hpdu hk hr
      obtain ⟨pdu', hpdu', hroom, -⟩ := hall _ _ (stateEntry_eq_some.2 ⟨pdu, k, hpdu, hk, rfl, .inl ⟨hr, rfl⟩⟩)
      rw [hpdu] at hpdu'
      cases hpdu'
      exact hroom
    · intro pdu k other hpdu hk hr hother
      obtain ⟨other', hget', -, hkind, hkey, hok⟩ :=
        hall _ _ (stateEntry_eq_some.2 ⟨pdu, k, hpdu, hk, rfl, .inr ⟨hr, other, hother, rfl⟩⟩)
      rw [(roomStateGet_some hother).1] at hget'
      cases hget'
      exact ⟨hkind, hkey, hok⟩

theorem stateMap_ok {create : Pdu} {ids : List EventId} {root : Root}
    (h : (stateMap plat create room ids).exec s = (.ok root, s')) :
    s' = s ∧ root.lookup (.roomCreate, "") = some create.eventId ∧
      ((∀ key e, root.lookup key = some e → InRoom plat room s' key e) ↔ ∀ eid ∈ ids, Belongs plat room s eid) := by
  unfold stateMap at h
  obtain ⟨root', s₁, hfold, hlast⟩ := Call.exec_bind_ok h
  obtain ⟨rfl, hall⟩ := enterStates_ok hfold
  split at hlast
  · rename_i hcreate
    cases hlast
    refine ⟨rfl, hcreate, ?_⟩
    simp only [belongs_iff, hall, AList.lookup_empty, reduceCtorEq, false_or]
    constructor
    · intro hin eid heid key e he
      exact hin key e ⟨eid, heid, he⟩
    · rintro hin key e ⟨eid, heid, he⟩
      exact hin eid heid key e he
  · cases hlast

end

/-! ## Events of other rooms -/

section
variable (plat : Platform) (room : RoomId)

/-- JSON of an event of another room, whichever way it is read. -/
structure OfOther (id : EventId) (json : Object) : Prop where
  stored : ∃ pdu r, plat.decodePdu json = .ok pdu ∧ ({ pdu with eventId := id } : Pdu).roomIdOrHash
    plat.codec = some r ∧
    r ≠ room
  parsed : ∀ pdu, fromIdVal plat id json room ≠ .ok pdu

def Foreign (id : EventId) (stored : Option Object) : Prop := ∃ json, stored = some json ∧ OfOther plat room id json

/-- Servers that differ at most in the log and in events of other rooms, under these ids. -/
inductive Elsewhere (D : EventId → Prop) (s : Server) : Server → Prop
  | intro (events : EventId → Option Object) (log : List Mark)
      (h : ∀ id, events id = s.eventidPdu id ∨
        D id ∧ Foreign plat room id (s.eventidPdu id) ∧ Foreign plat room id (events id)) :
      Elsewhere D s { s with eventidPdu := events, log := log }

end

section
variable {plat : Platform} {room : RoomId} {D : EventId → Prop} {s t : Server}

theorem getPduInRoom_foreign {id : EventId} (h : Foreign plat room id (s.eventidPdu id)) :
    s.getPduInRoom plat room id = none := by
  obtain ⟨json, hjson, ⟨pdu, r, hdecode, hroom, hne⟩, -⟩ := h
  unfold Server.getPduInRoom Server.getPdu
  rw [hjson]
  simp [hdecode, Except.toOption, Option.filter, hroom, hne]

theorem getPdu_congr {id : EventId} (h : t.eventidPdu id = s.eventidPdu id) : t.getPdu plat id =
    s.getPdu plat id := by
  unfold Server.getPdu
  rw [h]

theorem Elsewhere.stored (h : Elsewhere plat room D s t) (id : EventId) : t.eventidPdu id = s.eventidPdu id ∨
    D id ∧ Foreign plat room id (s.eventidPdu id) ∧ Foreign plat room id (t.eventidPdu id) := by
  obtain ⟨events, log, hev⟩ := h
  exact hev id

theorem Elsewhere.inRoom (h : Elsewhere plat room D s t) : s.getPduInRoom plat room = t.getPduInRoom plat room := by
  funext id
  rcases h.stored id with heq | ⟨-, hs, ht⟩
  · unfold Server.getPduInRoom
    rw [getPdu_congr heq]
  · rw [getPduInRoom_foreign hs, getPduInRoom_foreign ht]

theorem Elsewhere.pduExists (h : Elsewhere plat room D s t) (id : EventId) : s.pduExists id = t.pduExists id := by
  unfold Server.pduExists
  rcases h.stored id with heq | ⟨-, ⟨json, hs, -⟩, ⟨json', ht, -⟩⟩
  · rw [heq]
  · rw [hs, ht]
    rfl

theorem Elsewhere.write (h : Elsewhere plat room D s t) {w : Write} {id : EventId} (hw : w.Own room id) :
    Elsewhere plat room D (w.apply plat s) (w.apply plat t) := by
  obtain ⟨events, log, hev⟩ := h
  cases hw with
  | tick => exact .intro events log hev
  | note m => exact .intro events (m :: log) hev
  | add json =>
    simp only [Write.apply, Server.addPduOutlier]
    split
    · exact .intro events log hev
    · refine .intro (Function.update events id _) (_ :: log) fun y => ?_
      by_cases hy : y = id
      · subst hy
        left
        simp
      · simpa [Function.update_of_ne hy] using hev y
  | mark code =>
    simp only [Write.apply, Server.markEventRejected]
    split
    · exact .intro events log hev
    · exact .intro events log hev
  | retry => exact .intro events log hev
  | accept how value json => exact .intro events (_ :: log) hev

theorem Elsewhere.outlierJson (room' : RoomId) (id : EventId) :
    Lockstep (Elsewhere plat room D) (fun r r' => r = r' ∨ Foreign plat room id r ∧ Foreign plat room id r')
      (getOutlierPduJson plat room' id) (getOutlierPduJson plat room' id) := by
  apply Lockstep.act
  intro s t h
  rcases h.stored id with heq | ⟨-, ⟨json, hs, hother⟩, ⟨json', ht, hother'⟩⟩
  · rw [heq]
    cases s.eventidPdu id with
    | none => exact ⟨h, .ok (.inl rfl)⟩
    | some json =>
      obtain ⟨events, log, hev⟩ := h
      exact ⟨.intro events (_ :: log) hev, .ok (.inl rfl)⟩
  · rw [hs, ht]
    obtain ⟨events, log, hev⟩ := h
    exact ⟨.intro events (_ :: log) hev, .ok (.inr ⟨⟨json, rfl, hother⟩, ⟨json', rfl, hother'⟩⟩)⟩

theorem Elsewhere.verdict (id : EventId) (value : Object) (pdu : Pdu) (json : Object) :
    Same (Elsewhere plat room D) (knownVerdict plat room id value pdu json)
      (knownVerdict plat room id value pdu json) := by
  apply Lockstep.act
  intro s t h
  have hrej : t.rejection = s.rejection := by
    obtain ⟨events, log, hev⟩ := h
    rfl
  unfold Server.isEventRejected
  rw [hrej]
  by_cases hretry : (s.rejection id).any RejectionCode.isRetryable = true
  · rw [if_pos hretry, if_pos hretry]
    exact ⟨(h.write .retry).write (.mark _), .ok rfl⟩
  · rw [if_neg hretry, if_neg hretry]
    by_cases hrejected : (s.rejection id).isSome = true
    · rw [if_pos hrejected, if_pos hrejected]
      exact ⟨h, .error _⟩
    · rw [if_neg hrejected, if_neg hrejected]
      exact ⟨h.write (.note _ : Write.Own room id _), .ok rfl⟩

theorem checkRoomId_other {pdu : Pdu} {r : RoomId} (hroom : pdu.roomIdOrHash plat.codec = some r) (hne : r ≠ room) :
    checkRoomId plat room pdu =
      .error (.request "PDU room_id mismatch: event belongs to a different room than expected") := by
  unfold checkRoomId
  rw [hroom]
  simp [hne]

theorem Elsewhere.known (id : EventId) (value : Object) :
    Same (Elsewhere plat room D) (knownOutlier plat room id value) (knownOutlier plat room id value) := by
  unfold knownOutlier
  apply (Elsewhere.outlierJson room id).bind
  rintro r r' (rfl | ⟨⟨json, rfl, hother⟩, ⟨json', rfl, hother'⟩⟩)
  · split
    · exact pure_same _
    · split
      · exact pure_same _
      · exact Elsewhere.verdict id value _ _
  · -- neither parses as an event of the room
    dsimp only
    rcases hp : fromIdVal plat id json room with e | pdu
    · rcases hp' : fromIdVal plat id json' room with e' | pdu'
      · exact pure_same _
      · exact (hother'.parsed pdu' hp').elim
    · exact (hother.parsed pdu hp).elim

theorem getPdu_of_decode {id : EventId} {json : Object} {pdu : Pdu} (hs : s.eventidPdu id = some json)
    (hd : plat.decodePdu json = .ok pdu) : s.getPdu plat id = some { pdu with eventId := id } := by
  unfold Server.getPdu
  rw [hs]
  simp [hd, Except.toOption]

theorem Elsewhere.reuse (id : EventId) :
    Lockstep (Elsewhere plat room D) (Reused plat room) (reuseOutlier plat room id)
      (reuseOutlier plat room id) := by
  apply Lockstep.act
  intro s t h
  rcases h.stored id with heq | ⟨-, ⟨json, hs, hother⟩, ⟨json', ht, hother'⟩⟩
  · rw [getPdu_congr heq, heq]
    obtain ⟨events, log, hev⟩ := h
    split
    · exact ⟨.intro events (_ :: log) hev, .ok (.inl rfl)⟩
    · exact ⟨.intro events log hev, .ok (.inl rfl)⟩
  · obtain ⟨pdu, r, hdecode, hroom, hne⟩ := hother.stored
    obtain ⟨pdu', r', hdecode', hroom', hne'⟩ := hother'.stored
    rw [getPdu_of_decode hs hdecode, getPdu_of_decode ht hdecode', hs, ht]
    obtain ⟨events, log, hev⟩ := h
    have hrefused := checkRoomId_other hroom hne
    have hrefused' := checkRoomId_other hroom' hne'
    exact ⟨.intro events (_ :: log) hev, .ok (.inr ⟨_, _, _, rfl, rfl, hrefused, hrefused'⟩)⟩

theorem Elsewhere.handles (id : EventId) : Handles plat room id (Elsewhere plat room D) where
  world := by
    rintro s _ ⟨events, log, hev⟩
    rfl
  rejection := by
    rintro s _ ⟨events, log, hev⟩
    rfl
  inRoom s t h := h.inRoom
  writes w s t hw h := h.write hw
  known := Elsewhere.known id
  reuse := Elsewhere.reuse id

theorem Elsewhere.handleOutlierPdu (origin : ServerName) (create : Option Pdu) (roomVersion : RoomVersionId)
    (stage : AuthRecoveryStage) (n : Nat) (id : EventId) (value : Object) (skipSigVerify : Bool) :
    Same (Elsewhere plat room D)
      (Congruent.handleOutlierPdu plat origin create room roomVersion stage n id value skipSigVerify)
      (Congruent.handleOutlierPdu plat origin create room roomVersion stage n id value skipSigVerify) := by
  induction n generalizing id value skipSigVerify with
  | zero => exact Lockstep.throw _
  | succ n ih =>
    apply (Elsewhere.handles id).outlierBody_same
    intro eid other _
    exact ih eid other false

section
variable {v : RoomVersionId}

theorem askStateIds_same (id : EventId) (servers : List ServerName) :
    Same (Elsewhere plat room D) (askStateIds plat room id servers) (askStateIds plat room id servers) := by
  induction servers with
  | nil => exact Lockstep.throw _
  | cons server servers ih =>
    unfold askStateIds
    apply Lockstep.andThen ((Elsewhere.handles id).ask_same _)
    intro answer
    split
    · exact pure_same _
    · exact ih

theorem fetchEvent_same (server : ServerName) (fetched : List (EventId × RawPdu)) (eid : EventId) :
    Same (Elsewhere plat room D) (fetchEvent plat server fetched eid) (fetchEvent plat server fetched eid) := by
  unfold fetchEvent
  apply Lockstep.andThen ((Elsewhere.handles eid).ask_same _)
  intro answer
  split <;> exact pure_same _

theorem parseFetched_same (events : List (EventId × Object)) (f : EventId × RawPdu) :
    Same (Elsewhere plat room D) (parseFetched plat room v events f) (parseFetched plat room v events f) := by
  unfold parseFetched
  apply Lockstep.andThen (Same.attempt ((Elsewhere.handles f.1).genEventId_same f.2))
  intro r
  split
  · exact pure_same _
  · split <;> exact pure_same _

theorem checkFetched_same (skipSigVerify : Bool) (events : List (EventId × (Pdu × Object))) (e : EventId × Object) :
    Same (Elsewhere plat room D) (checkFetched plat room v skipSigVerify events e)
      (checkFetched plat room v skipSigVerify events e) := by
  have h : Handles plat room e.1 (Elsewhere plat room D) := Elsewhere.handles e.1
  have hverify : Same (Elsewhere plat room D) (verifyFetched plat room v skipSigVerify e.1 (e.2.remove "unsigned"))
      (verifyFetched plat room v skipSigVerify e.1 (e.2.remove "unsigned")) := by
    unfold verifyFetched
    split
    · exact pure_same _
    · exact Same.attempt (h.verifyEventAt_same _ _ _ _)
  have hstore : ∀ code json, Same (Elsewhere plat room D)
      (do markEventRejected plat e.1 code; addPduOutlier plat room e.1 json; pure events : H _)
      (do markEventRejected plat e.1 code; addPduOutlier plat room e.1 json; pure events) := by
    intro code json
    apply Lockstep.andThen (h.mark_same _)
    intro _
    apply Lockstep.andThen (h.add_same _)
    intro _
    exact pure_same _
  unfold checkFetched
  apply Lockstep.andThen hverify
  intro r
  split
  · exact hstore _ _
  · split
    · exact hstore _ _
    · dsimp only
      split
      · exact pure_same _
      · split <;> exact pure_same _

theorem handleFetched_same (n : Nat) (origin : ServerName) (create : Pdu) (events : List (EventId × (Pdu × Object)))
    (u : Unit) (eid : EventId) :
    Same (Elsewhere plat room D) (handleFetched plat n origin create room v events u eid)
      (handleFetched plat n origin create room v events u eid) := by
  unfold handleFetched
  split
  · exact pure_same _
  · apply Lockstep.andThen (Same.attempt (Elsewhere.handleOutlierPdu _ _ _ _ _ _ _ _))
    intro _
    exact pure_same _

end

theorem fetchUnknown_same (n : Nat) (origin : ServerName) (create : Pdu) (id : EventId) (skipSigVerify : Bool) :
    Same (Elsewhere plat room D) (fetchUnknown plat n origin create room id skipSigVerify)
      (fetchUnknown plat n origin create room id skipSigVerify) := by
  have h : Handles plat room id (Elsewhere plat room D) := Elsewhere.handles id
  unfold fetchUnknown
  apply Lockstep.andThen (h.ask_same _)
  intro pool
  apply Lockstep.andThen (askStateIds_same id pool)
  rintro ⟨server, chain, state⟩
  have hmissing : Same (Elsewhere plat room D)
      (read fun s => ((chain ++ state).filterMap plat.codec.parseEventId).filter fun eid => !s.pduExists eid)
      (read fun s => ((chain ++ state).filterMap plat.codec.parseEventId).filter fun eid => !s.pduExists eid) := by
    apply Lockstep.read
    intro s t hst
    apply List.filter_congr
    intro eid _
    rw [hst.pduExists]
  apply Lockstep.andThen hmissing
  intro missing
  apply Lockstep.andThen (Same.foldlM _ fun fetched eid _ => fetchEvent_same server fetched eid)
  intro fetched
  apply Lockstep.andThen (h.ask_same _)
  intro version
  have hversion : Same (Elsewhere plat room D) (orElse version (.database "No room version"))
      (orElse version (.database "No room version")) := by
    cases version with
    | none => exact Lockstep.throw _
    | some v => exact pure_same v
  apply Lockstep.andThen hversion
  intro v
  apply Lockstep.andThen (Same.foldlM _ fun events f _ => parseFetched_same events f)
  intro unknown
  apply Lockstep.andThen (Same.foldlM _ fun events e _ => checkFetched_same skipSigVerify events e)
  intro events
  apply Lockstep.andThen (Same.foldlM _ fun u eid _ => handleFetched_same n origin create events u eid)
  intro _
  exact pure_same _

theorem stateTarget_same (pdu : Pdu) (key : StateKey) (eid : EventId) (rejected : Bool) :
    Same (Elsewhere plat room D) (stateTarget plat room pdu key eid rejected)
      (stateTarget plat room pdu key eid rejected) := by
  have hvisible : Same (Elsewhere plat room D) (read fun s => (s.getPduId eid).isSome && !s.isEventRejected eid)
      (read fun s => (s.getPduId eid).isSome && !s.isEventRejected eid) := by
    apply Lockstep.read
    rintro s _ ⟨events, log, hev⟩
    rfl
  unfold stateTarget
  apply Lockstep.andThen hvisible
  intro visible
  split
  · apply Lockstep.read
    intro s t h
    unfold Server.roomStateGet
    rw [h.inRoom]
    obtain ⟨events, log, hev⟩ := h
    rfl
  · exact pure_same _

theorem enterState_same {eid : EventId} (hD : ¬ D eid) (state : Root) :
    Same (Elsewhere plat room D) (enterState plat room state eid) (enterState plat room state eid) := by
  have hget : Same (Elsewhere plat room D) (read fun s => s.getPdu plat eid) (read fun s => s.getPdu plat eid) := by
    apply Lockstep.read
    intro s t h
    rcases h.stored eid with heq | ⟨hd, -⟩
    · exact (getPdu_congr heq).symm
    · exact (hD hd).elim
  unfold enterState
  apply Lockstep.andThen hget
  intro pdu
  split
  · exact pure_same _
  · apply Lockstep.andThen ((Elsewhere.handles eid).rejection_same fun r => (r eid).isSome)
    intro rejected
    split
    · split
      · exact pure_same _
      · exact Lockstep.throw _
    · apply Lockstep.andThen (stateTarget_same _ _ _ _)
      intro target
      split
      · exact pure_same _
      · split
        · exact Lockstep.throw _
        · exact pure_same _

theorem stateMap_same {ids : List EventId} (hD : ∀ eid ∈ ids, ¬ D eid) (create : Pdu) :
    Same (Elsewhere plat room D) (stateMap plat create room ids) (stateMap plat create room ids) := by
  unfold stateMap
  apply Lockstep.andThen (Same.foldlM ids fun state eid heid => enterState_same (hD eid heid) state)
  intro root
  split
  · exact pure_same _
  · exact Lockstep.throw _

end

/-- A fetched state has the create event, no key twice, and only entries of the room exactly
when the events of the answer belong there; then, when none of them is stored as an event
of another room, it does not depend on events of other rooms. -/
theorem fetched_state_in_room (plat : Platform) (n : Nat) (origin : ServerName) (create : Pdu) (room : RoomId)
    (id : EventId) (skipSigVerify : Bool) (s : Server) :
    (∀ ids s₁ root s', (fetchUnknown plat n origin create room id skipSigVerify).exec s = (.ok ids, s₁) →
      (fetchState plat n origin create room id skipSigVerify).exec s = (.ok root, s') →
        root.keys.Nodup ∧ root.lookup (.roomCreate, "") = some create.eventId ∧
          ((∀ key e, root.lookup key = some e → InRoom plat room s' key e) ↔ ∀ eid ∈ ids,
            Belongs plat room s₁ eid)) ∧
    ((∀ ids s₁, (fetchUnknown plat n origin create room id skipSigVerify).exec s = (.ok ids, s₁) →
      ∀ eid ∈ ids, ¬ Foreign plat room eid (s.eventidPdu eid)) →
        ∀ t, Elsewhere plat room (fun _ => True) s t →
          ((fetchState plat n origin create room id skipSigVerify).exec t).1 =
            ((fetchState plat n origin create room id skipSigVerify).exec s).1) := by
  rw [fetchState_eq]
  constructor
  · intro ids s₁ root s' hfetch h
    rw [Call.exec_bind, hfetch] at h
    obtain ⟨rfl, hcreate, hiff⟩ := stateMap_ok h
    exact ⟨root.nodupKeys, hcreate, hiff⟩
  · intro hids t hst
    -- the servers differ where an event of another room is stored
    have hwhere : Elsewhere plat room (fun eid => Foreign plat room eid (s.eventidPdu eid)) s t := by
      obtain ⟨events, log, hev⟩ := hst
      refine .intro events log fun eid => (hev eid).imp_right ?_
      rintro ⟨-, hs, ht⟩
      exact ⟨hs, hs, ht⟩
    obtain ⟨hR, hres⟩ := fetchUnknown_same n origin create id skipSigVerify s t hwhere
    rw [Call.exec_bind, Call.exec_bind]
    rcases hfetch : (fetchUnknown plat n origin create room id skipSigVerify).exec s with ⟨r, s₁⟩
    rcases hfetch' : (fetchUnknown plat n origin create room id skipSigVerify).exec t with ⟨r', t₁⟩
    rw [hfetch, hfetch'] at hR hres
    obtain rfl : r = r' := hres.eq
    cases r with
    | error e => rfl
    | ok ids => exact ((stateMap_same (hids ids s₁ hfetch) create).exec_eq hR).symm

/-! ## A state with an event of another room -/

def foreignLevels : Object :=
  Object.insert (wireEvent "f" "m.room.power_levels" "@u:b" (some "") [] ["$c"] []) "room_id" (.str "!o:a")

def Server.naming (ids : List EventId) : Server :=
  let s := Server.plain fun _ => { World.plain with stateIds := fun _ _ _ => some ([], ids) }
  { s with
    eventidPdu := Function.update s.eventidPdu "$f" (some foreignLevels)
    eventidMetadata := Function.update s.eventidMetadata "$f" (some ⟨true, none⟩) }

def namedCreate : Pdu :=
  ⟨"$c", some "!r:a", "@u:b", 0, .roomCreate, .obj [("room_version", .str "11")], some "", [], 0, [], none, false⟩

def fetchNamed (ids : List EventId) : Except HErr Root × Server :=
  (fetchState .plain 1 "b" namedCreate "!r:a" "$x" false).exec (Server.naming ids)

theorem own_state_in_room : (∀ key e, ((fetchNamed ["$c", "$j"]).1.toOption.getD ∅).lookup key = some e →
      InRoom .plain "!r:a" (fetchNamed ["$c", "$j"]).2 key e) ∧
    ∀ t, Elsewhere .plain "!r:a" (fun _ => True) (Server.naming ["$c", "$j"]) t →
      ((fetchState .plain 1 "b" namedCreate "!r:a" "$x" false).exec t).1 = (fetchNamed ["$c", "$j"]).1 := by
  obtain ⟨hentries, hsame⟩ :=
    fetched_state_in_room .plain 1 "b" namedCreate "!r:a" "$x" false (Server.naming ["$c", "$j"])
  have hfetch : ∃ s₁, (fetchUnknown .plain 1 "b" namedCreate "!r:a" "$x" false).exec (Server.naming ["$c", "$j"]) =
      (.ok ["$c", "$j"], s₁) ∧ s₁.rejection = (fun _ => none) ∧
        (s₁.getPdu .plain "$c").bind (Pdu.roomIdOrHash .plain) = some "!r:a" ∧
        (s₁.getPdu .plain "$j").bind (Pdu.roomIdOrHash .plain) = some "!r:a" := ⟨_, rfl, rfl, rfl, rfl⟩
  obtain ⟨s₁, hfetch, hrejection, hcreate, hjoin⟩ := hfetch
  have hrun : fetchNamed ["$c", "$j"] =
      (.ok ((fetchNamed ["$c", "$j"]).1.toOption.getD ∅), (fetchNamed ["$c", "$j"]).2) := rfl
  constructor
  · apply (hentries _ s₁ _ _ hfetch hrun).2.2.2
    intro eid heid
    constructor
    · intro pdu key hpdu _ _
      simp only [List.mem_cons, List.not_mem_nil, or_false] at heid
      rcases heid with rfl | rfl
      · rw [hpdu] at hcreate
        exact hcreate
      · rw [hpdu] at hjoin
        exact hjoin
    · intro pdu key other _ _ hrejected
      unfold Server.isEventRejected at hrejected
      rw [hrejection] at hrejected
      cases hrejected
  · intro t ht
    refine hsame ?_ t ht
    intro ids s₂ hids eid heid hforeign
    rw [hfetch] at hids
    cases hids
    have hroom := getPduInRoom_foreign (s := Server.naming ["$c", "$j"]) hforeign
    simp only [List.mem_cons, List.not_mem_nil, or_false] at heid
    rcases heid with rfl | rfl
    · cases hroom
    · cases hroom

/-- An event of another room that the server has is taken over when a peer names it. -/
theorem foreign_levels_entered : ¬ ∀ (plat : Platform) (n : Nat) (origin : ServerName)
    (create : Pdu) (room : RoomId)
    (id : EventId) (skipSigVerify : Bool) (s s' : Server) (root : Root),
    (fetchState plat n origin create room id skipSigVerify).exec s = (.ok root, s') →
      ∀ key e, root.lookup key = some e → InRoom plat room s' key e := by
  intro hall
  have hrun : ∃ root s', fetchNamed ["$c", "$f"] = (.ok root, s') ∧ root.lookup (.roomPowerLevels, "") = some "$f" ∧
      (s'.getPdu .plain "$f").bind (Pdu.roomIdOrHash .plain) = some "!o:a" := ⟨_, _, rfl, rfl, rfl⟩
  obtain ⟨root, s', hrun, hlookup, hroom⟩ := hrun
  obtain ⟨pdu, hpdu, hin, -⟩ := hall .plain 1 "b" namedCreate "!r:a" "$x" false _ _ _ hrun _ _ hlookup
  rw [hpdu] at hroom
  have := hroom.symm.trans hin
  exact absurd this (by decide)

end Congruent
