import Congruent.KahnSort
import Congruent.OutlierSpec

/-!
# `fetch_state`

The state at an event, asked from a peer by `/state_ids`. The events the server
lacks are fetched one by one, verified, and handled as outliers.
-/

namespace Congruent

open H
open Call (Ensures Keeps)

/-- An event of a batch as `sort_timeline_events` sees it. -/
structure SortEntry where
  id : EventId
  parents : List EventId
  ts : Nat
  depth : Nat

def sortTimelineEvents (entries : List SortEntry) : List EventId :=
  kahnSort (entries.map fun e => ⟨e.id, e.parents, toLex (e.ts, toLex (e.depth, e.id))⟩)

section
variable (plat : Platform)

/-- The first server that answers `/state_ids`. -/
def askStateIds (room : RoomId) (id : EventId) : List ServerName → H (ServerName × List EventId × List EventId)
  | [] => throw (.request "No server could provide /state")
  | server :: servers => do
    match ← ask plat fun w => w.stateIds server room id with
    | some (authChain, state) => pure (server, authChain, state)
    | none => askStateIds room id servers

def fetchEvent (server : ServerName) (fetched : List (EventId × RawPdu)) (eid : EventId) :
    H (List (EventId × RawPdu)) := do
  match ← ask plat fun w => w.getEvent server eid with
  | some (raw :: _) => pure (fetched ++ [(eid, raw)])
  | _ => pure fetched

def parseFetched (room : RoomId) (v : RoomVersionId) (events : List (EventId × Object)) (f : EventId × RawPdu) :
    H (List (EventId × Object)) := do
  match ← (genEventIdCanonicalJson plat room v f.2).attempt with
  | .error _ => pure events
  | .ok (eid, value) => if eid = f.1 then pure (events ++ [(eid, value)]) else pure events

/-- The signature check, unless it is left out. -/
def verifyFetched (room : RoomId) (v : RoomVersionId) (skipSigVerify : Bool) (eid : EventId) (value : Object) :
    H (Except HErr Verified) :=
  if skipSigVerify || plat.bypassedSignatureEvents.contains eid then pure (.ok .all)
  else (verifyEventAt plat .fetchState room v eid value).attempt

def keptAs (v : RoomVersionId) (value : Object) : Verified → Except String Object
  | .all => .ok value
  | .signatures => plat.redact v value

def attachAll (eid : EventId) (stashed : Option Value) (value : Object) : Object :=
  (match stashed with
    | some (.obj unsigned) => if unsigned.isEmpty then value else value.insert "unsigned" (.obj unsigned)
    | _ => value).insert "event_id" (.str eid)

def checkFetched (room : RoomId) (v : RoomVersionId) (skipSigVerify : Bool)
    (events : List (EventId × (Pdu × Object))) (e : EventId × Object) : H (List (EventId × (Pdu × Object))) := do
  let value := e.2.remove "unsigned"
  match ← verifyFetched plat room v skipSigVerify e.1 value with
  | .error _ => do
    markEventRejected plat e.1 .signatureVerificationFailed
    addPduOutlier plat room e.1 (value.insert "event_id" (.str e.1))
    pure events
  | .ok result =>
    match keptAs plat v value result with
    | .error _ => do
      markEventRejected plat e.1 .invalidPduFormat
      addPduOutlier plat room e.1 (value.insert "event_id" (.str e.1))
      pure events
    | .ok kept =>
      let json := attachAll e.1 (e.2.get "unsigned") kept
      match fromIdVal plat e.1 json room with
      | .error _ => pure events
      | .ok pdu => match checkRoomId plat room pdu with
        | .error _ => pure events
        | .ok () => pure (events ++ [(e.1, (pdu, json))])

def handleFetched (n : Nat) (origin : ServerName) (create : Pdu) (room : RoomId) (v : RoomVersionId)
    (events : List (EventId × (Pdu × Object))) (_ : Unit) (eid : EventId) : H Unit :=
  match List.lookup eid events with
  | none => pure ()
  | some (_, json) => do
    let _ ← (handleOutlierPdu plat origin (some create) room v .afterStateIds n eid json true).attempt
    pure ()

def stateTarget (room : RoomId) (pdu : Pdu) (key : StateKey) (eid : EventId) (rejected : Bool) : H
    (Option EventId) := do
  let visible ← read fun s => (s.getPduId eid).isSome && !s.isEventRejected eid
  if rejected && !visible then read fun s => (s.roomStateGet plat room pdu.kind key).map (·.eventId)
  else pure (some eid)

def enterState (room : RoomId) (state : Root) (eid : EventId) : H Root := do
  match ← read fun s => s.getPdu plat eid with
  | none => pure state
  | some pdu => do
    let rejected ← read fun s => s.isEventRejected eid
    match pdu.stateKey with
    | none => if rejected then pure state else throw (.database "Found non-state pdu in state events.")
    | some key => do
      match ← stateTarget plat room pdu key eid rejected with
      | none => pure state
      | some target =>
        if (state.lookup (pdu.kind, key)).isSome then
          throw (.database ("State event's type and state_key combination exists multiple times: " ++
            pdu.kind.asStr ++ ", " ++ key))
        else pure (state.insert (pdu.kind, key) target)

def fetchState (n : Nat) (origin : ServerName) (create : Pdu) (room : RoomId) (id : EventId)
    (skipSigVerify : Bool) :
    H Root := do
  let pool ← ask plat fun w => w.serverPool room origin
  let (server, authChain, state) ← askStateIds plat room id pool
  let ids := (authChain ++ state).filterMap plat.codec.parseEventId
  let missing ← read fun s => ids.filter fun eid => !s.pduExists eid
  let fetched ← (missing.dedup.insertionSort (· ≤ ·)).foldlM (fetchEvent plat server) []
  let v ← orElse (← ask plat fun w => w.roomVersion room) (.database "No room version")
  let unknown ← fetched.foldlM (parseFetched plat room v) []
  let events ← unknown.foldlM (checkFetched plat room v skipSigVerify) []
  let sorted := sortTimelineEvents (events.map fun e => ⟨e.1, e.2.1.authEvents, e.2.1.originServerTs, e.2.1.depth⟩)
  sorted.dedup.foldlM (handleFetched plat n origin create room v events) ()
  let root ← state.foldlM (enterState plat room) ∅
  if root.lookup (.roomCreate, "") = some create.eventId then pure root
  else throw (.database "Incoming event refers to wrong create event.")

end

/-! ## What it writes -/

section
variable {plat : Platform} {s : Server} {room : RoomId} {v : RoomVersionId} {T : Server → Server → Prop}
  [Grows T] [Admits plat T]

theorem attachAll_strip (eid : EventId) (stashed : Option Value) (value : Object) :
    (attachAll eid stashed value).strip = value.strip := by
  unfold attachAll
  rw [Object.strip_insert_eventId]
  split
  · split
    · rfl
    · exact Object.strip_insert_unsigned _ _
  · rfl

theorem askStateIds_keeps (id : EventId) : ∀ servers, Keeps T (askStateIds plat room id servers) s
  | [] => Ensures.throw
  | server :: servers => by
    unfold askStateIds
    refine (ask_keeps _).andThen fun answer => ?_
    split
    · exact pure_keeps _
    · exact askStateIds_keeps id servers

theorem fetchEvent_keeps (server : ServerName) (fetched : List (EventId × RawPdu)) (eid : EventId) :
    Keeps T (fetchEvent plat server fetched eid) s := by
  unfold fetchEvent
  refine (ask_keeps _).andThen fun answer => ?_
  split <;> exact pure_keeps _

def BatchTaken (room : RoomId) (events : List (EventId × Object)) (s : Server) : Prop :=
  ∀ e ∈ events, Taken s.log room e.1 e.2

theorem BatchTaken.later {events : List (EventId × Object)} {s' : Server} (h : BatchTaken room events s)
    (hr : Relation.ReflTransGen T s s') : BatchTaken room events s' :=
  fun e he => (h e he).later hr

theorem parseFetched_ensures {events : List (EventId × Object)} (hb : BatchTaken room events s)
    (f : EventId × RawPdu) : Ensures T (BatchTaken room) (parseFetched plat room v events f) s := by
  unfold parseFetched
  refine (genEventId_ensures room v f.2).attempt.bind fun r s' hr ht => ?_
  split
  · exact Ensures.pure fun _ hr' => hb.later (hr.trans hr')
  · rename_i eid value
    split
    · refine Ensures.pure fun s₁ hr' e he => ?_
      rcases List.mem_append.mp he with he | he
      · exact (hb e he).later (hr.trans hr')
      · rw [List.mem_singleton.mp he]
        exact (ht _ rfl).later hr'
    · exact Ensures.pure fun _ hr' => hb.later (hr.trans hr')

def BatchVerified (plat : Platform) (room : RoomId) (events : List (EventId × (Pdu × Object)))
    (s : Server) : Prop :=
  ∀ e ∈ events, Traced plat s.log room e.1 e.2.2 ∧ Vouched plat (fun _ => True) s.log e.1 e.2.2

omit [Admits plat T] in
theorem BatchVerified.later {events : List (EventId × (Pdu × Object))} {s' : Server}
    (h : BatchVerified plat room events s) (hr : Relation.ReflTransGen T s s') : BatchVerified
      plat room events s' :=
  fun e he => ⟨(h e he).1.later hr, (h e he).2.mono fun _ hm => Grows.path hr hm⟩

/-- A check that succeeds was made, unless the event is exempt from it. -/
def VerifiedOr (plat : Platform) (room : RoomId) (v : RoomVersionId) (eid : EventId) (value : Object)
    (r : Except HErr Verified) (s : Server) : Prop :=
  ∀ result, r = .ok result → (eid ∈ plat.bypassedSignatureEvents ∧ result = .all) ∨
    .verified .fetchState room v eid value result ∈ s.log

theorem verifyFetched_ensures (eid : EventId) (value : Object) :
    Ensures T (VerifiedOr plat room v eid value) (verifyFetched plat room v false eid value) s := by
  unfold verifyFetched
  split
  · rename_i hby
    refine Ensures.pure fun _ _ result h => ?_
    cases h
    exact .inl ⟨by simpa using hby, rfl⟩
  · exact (verifyEventAt_ensures .fetchState room v eid value).attempt.mono
      fun r s h result he => .inr (h result he)

theorem checkFetched_ensures {events : List (EventId × (Pdu × Object))}
    (hb : BatchVerified plat room events s) {e : EventId × Object} (ht : Taken s.log room e.1 e.2) :
    Ensures T (BatchVerified plat room) (checkFetched plat room v false events e) s := by
  unfold checkFetched
  simp only
  refine (verifyFetched_ensures e.1 _).bind fun r s' hr hv => ?_
  have hb' := hb.later hr
  have htr : Traced plat s'.log room e.1 ((e.2.remove "unsigned").insert "event_id" (.str e.1)) :=
    (ht.later hr).traced.same (by simp [SameBody])
  have hstore : ∀ code, Ensures T (BatchVerified plat room) (do
      markEventRejected plat e.1 code
      addPduOutlier plat room e.1 ((e.2.remove "unsigned").insert "event_id" (.str e.1))
      pure events) s' := fun code =>
    (markEventRejected_keeps _ _).andThen fun _ => (addPduOutlier_keeps htr).andThen fun _ =>
      Ensures.pure fun _ hr' => hb'.later hr'
  split
  · exact hstore _
  · rename_i result
    split
    · exact hstore _
    · rename_i kept hkept
      have hjson : Traced plat s'.log room e.1 kept ∧ Vouched plat (fun _ => True) s'.log e.1 kept := by
        cases result with
        | all =>
          cases hkept
          refine ⟨(ht.later hr).traced.same (by simp [SameBody]), (hv _ rfl).imp (·.1) fun hm => ?_⟩
          exact ⟨_, room, v, _, .all, trivial, hm, rfl⟩
        | signatures =>
          have hm := (hv _ rfl).resolve_left fun h => by cases h.2
          exact ⟨⟨e.2, ht.later hr, .inr ⟨_, v, kept, hm, hkept, rfl⟩⟩,
            .inr ⟨_, room, v, _, .signatures, trivial, hm, kept, hkept, rfl⟩⟩
      have hsame : SameBody (attachAll e.1 (e.2.get "unsigned") kept) kept := attachAll_strip _ _ _
      split
      · exact Ensures.pure fun _ hr' => hb'.later hr'
      · split
        · exact Ensures.pure fun _ hr' => hb'.later hr'
        · refine Ensures.pure fun s₁ hr' x hx => ?_
          rcases List.mem_append.mp hx with hx | hx
          · exact hb'.later hr' x hx
          · rw [List.mem_singleton.mp hx]
            exact ⟨(hjson.1.same hsame).later hr', (hjson.2.same hsame).mono fun _ hm => Grows.path hr' hm⟩

theorem handleFetched_keeps (n : Nat) (origin : ServerName) (create : Pdu)
    {events : List (EventId × (Pdu × Object))} (hb : BatchVerified plat room events s) (u : Unit) (eid : EventId) :
    Keeps T (handleFetched plat n origin create room v events u eid) s := by
  unfold handleFetched
  split
  · exact pure_keeps _
  · rename_i pdu json hl
    obtain ⟨l, l', rfl, _⟩ := List.lookup_eq_some_iff.mp hl
    obtain ⟨htr, hv⟩ := hb (eid, (pdu, json)) (by simp)
    refine (handleOutlierPdu_ensures origin (some create) v _ n true htr (by simp) fun _ =>
      hv).attempt.keeps.andThen ?_
    exact fun _ => pure_keeps _

omit [Grows T] [Admits plat T] in
theorem stateTarget_keeps (pdu : Pdu) (key : StateKey) (eid : EventId) (rejected : Bool) :
    Keeps T (stateTarget plat room pdu key eid rejected) s := by
  unfold stateTarget
  refine (read_keeps _).andThen fun visible => ?_
  split
  · exact read_keeps _
  · exact pure_keeps _

omit [Grows T] [Admits plat T] in
theorem enterState_keeps (state : Root) (eid : EventId) : Keeps T (enterState plat room state eid) s := by
  unfold enterState
  refine (read_keeps _).andThen fun pdu => ?_
  split
  · exact pure_keeps _
  · refine (read_keeps _).andThen fun rejected => ?_
    split
    · split
      · exact pure_keeps _
      · exact Ensures.throw
    · refine (stateTarget_keeps _ _ _ _).andThen fun target => ?_
      split
      · exact pure_keeps _
      · split
        · exact Ensures.throw
        · exact pure_keeps _

theorem fetchState_keeps (n : Nat) (origin : ServerName) (create : Pdu) (id : EventId) :
    Keeps T (fetchState plat n origin create room id false) s := by
  unfold fetchState
  refine (ask_keeps _).andThen fun pool => ?_
  refine (askStateIds_keeps id pool).andThen fun found => ?_
  refine (read_keeps _).andThen fun missing => ?_
  refine (Ensures.foldlM_keeps _ fun fetched eid _ => fetchEvent_keeps _ fetched eid).andThen fun fetched => ?_
  refine (ask_keeps _).andThen fun version => ?_
  refine (orElse_keeps _ _).andThen fun v => ?_
  have hparse : Ensures T (BatchTaken room) (fetched.foldlM (parseFetched plat room v) []) s :=
    Ensures.foldlM fetched (fun _ _ _ hb _ hr => hb.later hr) (fun _ f _ _ _ hb => parseFetched_ensures hb f)
      (by simp [BatchTaken])
  refine hparse.bind fun unknown s₁ _ hu => ?_
  have hcheck : Ensures T (BatchVerified plat room)
      (unknown.foldlM (checkFetched plat room v false) []) s₁ :=
    Ensures.foldlM unknown (fun _ _ _ hb _ hr => hb.later hr)
      (fun _ e he _ hr hb => checkFetched_ensures hb ((hu e he).later hr)) (by simp [BatchVerified])
  refine hcheck.bind fun events s₂ _ hb => ?_
  refine (Ensures.foldlM_keeps _ fun u eid _ => handleFetched_keeps n origin create hb u eid).andThen fun _ => ?_
  refine (Ensures.foldlM_keeps _ fun state eid _ => enterState_keeps state eid).andThen fun root => ?_
  split
  · exact pure_keeps _
  · exact Ensures.throw

end

end Congruent
