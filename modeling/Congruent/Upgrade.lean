import Congruent.FetchPrev

/-!
# `upgrade_outlier_to_timeline_pdu`

An outlier is authenticated against the state at the event, the room's state is
resolved with it, and it is appended to the timeline or soft-failed.
-/

namespace Congruent

open H
open Call (Ensures Keeps)

section
variable (plat : Platform)

/-! ## State resolution (`resolve_state.rs`) -/

def Server.stale (s : Server) (id : EventId) : Bool :=
  s.isEventRejected id && s.rejection id ≠ some .authCheckFailed && (s.getPduId id).isSome

/-- An event as state resolution sees it. -/
def Server.resView (s : Server) (plat : Platform) (room : RoomId) (id : EventId) : Option Pdu :=
  (s.getPduInRoom plat room id).map fun pdu => { pdu with rejected := s.isEventRejected id && !s.stale id }

def Server.clearStale (plat : Platform) (s : Server) (id : EventId) : Server :=
  if s.stale id then (Write.clearStale id).apply plat s else s

def stateResolution (room : RoomId) (v : RoomVersionId) : List Root → H Root
  | [] => pure ∅
  | [m] => pure m
  | m :: m' :: ms => Call.act fun s =>
    let sets := m :: m' :: ms
    (.ok (plat.resolveStateMaps v sets (s.resView plat room)),
      (plat.lookedUp v sets (s.resView plat room)).foldl (Server.clearStale plat) s)

def resolveState (room : RoomId) (v : RoomVersionId) (incoming : Root) : H Root := do
  let current ← orElse (← read fun s => s.roomRoot room) (.database ("No state for " ++ room))
  stateResolution plat room v [current, incoming]

/-! ## The state at an event (`state_at_incoming.rs`) -/

/-- The state after an event whose root is known: its own entry is added. -/
def stateAtIncomingFork (root : Root) (prev : Pdu) : Root :=
  match prev.stateKey with
  | some key => root.insert (prev.kind, key) prev.eventId
  | none => root

def walkBack (room : RoomId) : Nat → EventId → Pdu → H (Option (Root × Pdu))
  | 0, _, _ => pure none
  | n + 1, prev, pdu => do
    match ← read fun s => s.eventRoot prev with
    | some root => pure (some (root, pdu))
    | none =>
      if !(← read fun s => s.isEventRejected prev) then pure none
      else
        match pdu.prevEvents with
        | [parent] =>
          match ← read fun s => s.getPduInRoom plat room parent with
          | none => pure none
          | some parentPdu => walkBack room n parent parentPdu
        | _ => pure none

def stateAtIncomingDegreeOne (n : Nat) (room : RoomId) (prev : EventId) : H (Option Root) := do
  match ← read fun s => s.getPduInRoom plat room prev with
  | none => pure none
  | some pdu =>
    if pdu.roomId ≠ some room then throw (.database "prev_event is not in the same room")
    else
      match ← walkBack plat room n prev pdu with
      | none => pure none
      | some (root, pdu) => pure (some (stateAtIncomingFork root pdu))

/-- A map from roots to events with one more. -/
def putFork (forks : List (Root × Pdu)) (root : Root) (pdu : Pdu) : List (Root × Pdu) :=
  if forks.any fun f => f.1.same root then forks.map fun f => if f.1.same root then (f.1, pdu) else f
  else forks ++ [(root, pdu)]

def Server.extremityRoots (s : Server) (plat : Platform) (room : RoomId) : List EventId → List (Root × Pdu) →
    Option (List (Root × Pdu))
  | [], forks => some forks
  | prev :: prevs, forks =>
    match s.getPduInRoom plat room prev, s.eventRoot prev with
    | some pdu, some root =>
      if pdu.roomId = some room then s.extremityRoots plat room prevs (putFork forks root pdu)
      else none
    | _, _ => none

def stateAtIncomingResolved (room : RoomId) (v : RoomVersionId) (prevEvents : List EventId) : H (Option Root) := do
  let order ← ask plat fun w => w.order prevEvents.length
  match ← read fun s => s.extremityRoots plat room (reorder prevEvents order) [] with
  | none => pure none
  | some forks => some <$> stateResolution plat room v (forks.map fun f => stateAtIncomingFork f.1 f.2)

def Server.fetchedForks (s : Server) (plat : Platform) (room : RoomId) (anchor : EventId) (fetched : Root) :
    List EventId → Option (List Root)
  | [] => some []
  | prev :: prevs =>
    if prev = anchor then (s.fetchedForks plat room anchor fetched prevs).map (fetched :: ·)
    else match s.getPduInRoom plat room prev, s.eventRoot prev with
      | some pdu, some root =>
        (s.fetchedForks plat room anchor fetched prevs).map (stateAtIncomingFork root pdu :: ·)
      | _, _ => none

def stateAtIncomingWithFetchedPrev (room : RoomId) (v : RoomVersionId)
    (prevEvents : List EventId) (anchor : EventId)
    (fetched : Root) : H (Option Root) := do
  match ← read fun s => s.fetchedForks plat room anchor fetched prevEvents with
  | none | some [] => pure none
  | some (first :: forks) =>
    if forks.all fun fork => first.same fork then pure (some first)
    else some <$> stateResolution plat room v (first :: forks)

/-- Whether an event may be sent by someone who is not a member yet. -/
def exemptFromMembership (pdu : Pdu) : Bool :=
  pdu.kind = .roomCreate || (pdu.kind = .roomMember && pdu.stateKey = some pdu.sender &&
    match plat.codec.roomMember pdu.content with
    | .ok .join | .ok .knock => true
    | _ => false)

/-- Whether a reused snapshot lacks the membership of the event's sender. -/
def lacksSenderMembership (room : RoomId) (pdu : Pdu) (state : Root) : H Bool := do
  let isPartial ← partialServer plat room
  pure (!exemptFromMembership plat pdu && !isPartial && (state.lookup (.roomMember, pdu.sender)).isNone)

def predecessorState (n : Nat) (room : RoomId) (v : RoomVersionId) (prevEvents : List EventId) : H (Option Root) :=
  match prevEvents with
  | [prev] => stateAtIncomingDegreeOne plat n room prev
  | prevs => stateAtIncomingResolved plat room v prevs

def localStateAt (n : Nat) (room : RoomId) (v : RoomVersionId) (pdu : Pdu) : H (Option Root) := do
  match ← predecessorState plat n room v pdu.prevEvents with
  | none => pure none
  | some reused =>
    if ← lacksSenderMembership plat room pdu reused then pure none else pure (some reused)

/-- The state at an event through a deeper point a peer knows. -/
def anchoredStateAt (n : Nat) (origin : ServerName) (create : Pdu) (room : RoomId) (v : RoomVersionId) (pdu : Pdu)
    (anchor : Option EventId) : H (Option Root) :=
  match anchor with
  | none => pure none
  | some anchor => do
    match ← (fetchState plat n origin create room anchor false).attempt with
    | .error _ => pure none
    | .ok fetched =>
      if pdu.prevEvents = [anchor] then pure (some fetched)
      else if 1 < pdu.prevEvents.length ∧ anchor ∈ pdu.prevEvents then
        stateAtIncomingWithFetchedPrev plat room v pdu.prevEvents anchor fetched
      else pure none

def fetchStateAt (n : Nat) (origin : ServerName) (create : Pdu) (room : RoomId) (v : RoomVersionId) (pdu : Pdu)
    (anchor : Option EventId) : H Root := do
  match ← anchoredStateAt plat n origin create room v pdu anchor with
  | some state => pure state
  | none => fetchState plat n origin create room pdu.eventId false

def stateAtIncoming (n : Nat) (origin : ServerName) (create : Pdu) (room : RoomId) (v : RoomVersionId) (pdu : Pdu)
    (anchor : Option EventId) : H (Root × Bool) := do
  match ← localStateAt plat n room v pdu with
  | some state => pure (state, false)
  | none => do
    let state ← fetchStateAt plat n origin create room v pdu anchor
    pure (state, true)

/-! ## Auth checks -/

def claimedFirst (isPartial : Bool) (pdu : Pdu) : Bool :=
  isPartial && pdu.kind = .roomMember && pdu.stateKey = some pdu.sender &&
    match plat.codec.roomMember pdu.content with
    | .ok .leave => true
    | _ => false

def Server.partialAuthEvents (s : Server) (plat : Platform) (isPartial : Bool) (pdu : Pdu) : List Pdu :=
  if isPartial then pdu.authEvents.filterMap (s.getPdu plat) else []

def claimedEvent (claimed : List Pdu) (kind : EventType) (key : StateKey) : Option Pdu :=
  claimed.find? fun p => p.kind = kind && p.stateKey = some key

def withClaimed (first : Bool) (claimed : List Pdu) (fetch : EventType → StateKey → Option Pdu) (kind : EventType)
    (key : StateKey) : Option Pdu :=
  if first then (claimedEvent claimed kind key).or (fetch kind key)
  else (fetch kind key).or (claimedEvent claimed kind key)

def Server.stateFetch (s : Server) (plat : Platform) (state : Root) (kind : EventType)
    (key : StateKey) : Option Pdu :=
  (state.lookup (kind, key)).bind (s.getPdu plat)

/-- An entry of the room's current state that bears on an event (`get_auth_events`). -/
def Server.authEventsFetch (s : Server) (plat : Platform) (room : RoomId) (v : RoomVersionId) (pdu : Pdu)
    (kind : EventType) (key : StateKey) : Option Pdu :=
  if (plat.authTypesForEvent v pdu).contains (kind, key) then s.roomStateGet plat room kind key else none

def toRoomVersion (v : RoomVersionId) : Except HErr RoomVersion :=
  match RoomVersion.new v with
  | .ok version => .ok version
  | .error _ => .error (.database "room version is supported")

/-- `auth_check`, with its error as the handler reports it. -/
def runAuthCheck (v : RoomVersion) (pdu : Pdu) (create : Pdu) (fetch : EventType → StateKey → Option Pdu) :
    Except HErr Bool :=
  match authCheck plat.codec v pdu none fetch create with
  | .ok b => .ok b
  | .error _ => .error (.request "Auth check failed")

def Pdu.redactsId (pdu : Pdu) : Option EventId := if pdu.kind = .roomRedaction then pdu.redacts else none

def badRedaction (room : RoomId) (pdu : Pdu) : H Bool :=
  match pdu.redactsId with
  | none => pure false
  | some target => do
    if (← read fun s => s.getPdu plat target).isSome then
      let can ← lift (← ask plat fun w => w.userCanRedact target pdu.sender room)
      pure (!can)
    else pure false

def currentStateCheck (room : RoomId) (v : RoomVersionId) (version : RoomVersion)
    (pdu create : Pdu) (isPartial : Bool)
    (claimed : List Pdu) : H Bool := do
  let passes ← Call.ask fun s => runAuthCheck plat version pdu create
    (withClaimed (claimedFirst plat isPartial pdu) claimed (s.authEventsFetch plat room v pdu))
  if !passes then pure true else badRedaction plat room pdu

def softFailCheck (room : RoomId) (v : RoomVersionId) (version : RoomVersion) (pdu create : Pdu) (isPartial : Bool)
    (claimed : List Pdu) (isTimelineEvent : Bool) : H Bool :=
  if isTimelineEvent then currentStateCheck plat room v version pdu create isPartial claimed else pure false

def policySpam (room : RoomId) (pdu : Pdu) : H Bool :=
  if pdu.stateKey.isNone then ask plat fun w => w.policySpam pdu room else pure false

/-- What the policy server and earlier soft failures make of an event that has
not failed yet. -/
def laterSoftFail (room : RoomId) (pdu : Pdu) (softFail : Bool) : H Bool :=
  if softFail then pure true
  else do
    let spam ← policySpam plat room pdu
    match pdu.redactsId with
    | none => pure spam
    | some target => do
      let failed ← read fun s => s.softFailed target
      pure (spam || failed)

/-! ## The new state -/

def Server.reusableRoot (s : Server) (plat : Platform) (room : RoomId) (pdu : Pdu) : Option Root :=
  match pdu.prevEvents with
  | [prev] =>
    match s.getPduInRoom plat room prev, s.eventRoot prev with
    | some prevPdu, some root =>
      match prevPdu.stateKey with
      | none => some root
      | some key =>
        match (root.lookup (prevPdu.kind, key)).bind (s.getPduInRoom plat room) with
        | some found => if found.eventId = prev then some root else none
        | none => none
    | _, _ => none
  | _ => none

def newRoomState (room : RoomId) (v : RoomVersionId) (pdu : Pdu) (stateAt : Root) (isTimelineEvent recovered : Bool)
    (isPartial : Bool) : H (Option Root × Root) := do
  match pdu.stateKey with
  | some key => do
    let prevRoot ← read fun s => (s.reusableRoot plat room pdu).getD stateAt
    match ← read fun s => if isPartial then s.roomRoot room else none with
    | some current => pure (some prevRoot, current.insert (pdu.kind, key) pdu.eventId)
    | none => do
      let root ← resolveState plat room v (stateAt.insert (pdu.kind, key) pdu.eventId)
      pure (some prevRoot, root)
  | none =>
    if isTimelineEvent && recovered then do
      let prevRoot ← read fun s => s.roomRoot room
      let root ← resolveState plat room v stateAt
      pure (prevRoot, root)
    else if isTimelineEvent then do
      let root ← read fun s => (s.reusableRoot plat room pdu).getD stateAt
      pure (none, root)
    else pure (none, stateAt)

/-- Under the room's lock: the current state decides, and the event is appended or
soft-failed. -/
def upgradeLocked (call : Nat) (pdu : Pdu) (json : Object) (create : Pdu) (room : RoomId) (v : RoomVersionId)
    (version : RoomVersion) (isTimelineEvent predecessorsRecovered wasRecovered isPartial : Bool)
    (claimed : List Pdu)
    (stateAt : Root) : H (Option Nat × Bool) := do
  match ← read fun s => s.getPduId pdu.eventId with
  | some position => pure (some position, false)
  | none => do
    let recovered := wasRecovered || predecessorsRecovered
    let softFail ← softFailCheck plat room v version pdu create isPartial claimed isTimelineEvent
    let (prevRoot, root) ← newRoomState plat room v pdu stateAt isTimelineEvent recovered isPartial
    if ← laterSoftFail plat room pdu softFail then do
      write plat (.softFail call room pdu.eventId json isTimelineEvent root)
      throw (.request "Event has been soft failed")
    else do
      let prev ← read fun s => s.prevState plat room pdu prevRoot
      Call.refuse (prev.any fun p => p.content.asObject.isNone) (.database "Failed to convert prev_state content")
      let position ← read fun s => s.count
      write plat (.append ⟨call, room, pdu, json, isTimelineEvent, root, prevRoot,
        isTimelineEvent && (pdu.stateKey.isSome || recovered)⟩)
      pure (some position, recovered)

def upgradeOutlierToTimelinePdu (n call : Nat) (pdu : Pdu) (json : Object) (create : Pdu) (origin : ServerName)
    (room : RoomId) (isTimelineEvent predecessorsRecovered : Bool) (anchor : Option EventId) :
    H (Option Nat × Bool) := do
  match ← read fun s => s.getPduId pdu.eventId with
  | some position => pure (some position, false)
  | none =>
    if ← read fun s => s.softFailed pdu.eventId then throw (.request "Event has been soft failed")
    else do
      let v ← lift (getRoomVersionId plat create)
      let (stateAt, wasRecovered) ← stateAtIncoming plat n origin create room v pdu anchor
      let version ← lift (toRoomVersion v)
      let isPartial ← partialServer plat room
      let claimed ← read fun s => s.partialAuthEvents plat isPartial pdu
      let passes ← Call.ask fun s => runAuthCheck plat version pdu create
        (withClaimed (claimedFirst plat isPartial pdu) claimed (s.stateFetch plat stateAt))
      if !passes then do
        markEventRejected plat pdu.eventId .authCheckFailed
        throw (.request "Event has failed auth check with state at the event.")
      else
        Call.atomic (upgradeLocked plat call pdu json create room v version isTimelineEvent predecessorsRecovered
          wasRecovered isPartial claimed stateAt)

end

/-! ## What it writes -/

section
variable {plat : Platform} {s s' : Server} {room : RoomId} {v : RoomVersionId}

theorem Entered.mono {l l' : List Mark} (h : ∀ m ∈ l, m ∈ l') {call : Nat} {id : EventId} {json : Object}
    (he : Entered plat l call room id json) : Entered plat l' call room id json := by
  cases he with
  | delivered origin value how hd hn ho hs hhow hr =>
    exact .delivered origin value how (h _ hd) (h _ hn) (h _ ho) (fun server hv => h _ (hs server hv)) hhow (h _ hr)
  | retried origin value hd hr => exact .retried origin value (h _ hd) (h _ hr)

theorem Handed.mono {l l' : List Mark} (h : ∀ m ∈ l, m ∈ l') {call : Nat} {id : EventId}
    {json : Object} {flag : Bool}
    (hh : Handed plat l call room id json flag) : Handed plat l' call room id json flag := by
  cases hh with
  | entered he => exact .entered (he.mono h)
  | fetched id' json' he value how hhow hr => exact .fetched id' json' (he.mono h) value how hhow (h _ hr)
  | promoted id' json' he hp => exact .promoted id' json' (he.mono h) (h _ hp)

/-- Steps as they are made under the lock before the event is appended. -/
def Quiet (plat : Platform) (s s' : Server) : Prop := Step plat s s' ∧ s'.eventidMetadata = s.eventidMetadata

/-- Relations that passing time and clearing stale rejections belong to. -/
structure Allows (plat : Platform) (T : Server → Server → Prop) : Prop where
  tick (s : Server) : T s (Write.tick.apply plat s)
  clear (s : Server) (id : EventId) (h : s.stale id) : T s ((Write.clearStale id).apply plat s)

theorem Admits.allows {T : Server → Server → Prop} [Grows T] [Admits plat T] : Allows plat T where
  tick _ := Admits.write .tick rfl trivial
  clear _ id h := Admits.write (.clearStale id) rfl (by
    simp only [Server.stale, Bool.and_eq_true] at h
    exact h.2)

theorem Allows.quiet : Allows plat (Quiet plat) where
  tick s := ⟨Admits.allows.tick s, rfl⟩
  clear s id h := ⟨Admits.allows.clear s id h, rfl⟩

section
variable {T : Server → Server → Prop} (hT : Allows plat T)

include hT in
theorem clearStale_path (ids : List EventId) :
    ∀ s, Relation.ReflTransGen T s (ids.foldl (Server.clearStale plat) s) := by
  induction ids with
  | nil => exact fun s => .refl
  | cons id ids ih =>
    intro s
    refine Relation.ReflTransGen.trans ?_ (ih _)
    unfold Server.clearStale
    split
    · rename_i h
      exact .single (hT.clear s id h)
    · exact .refl

include hT in
theorem stateResolution_keeps (sets : List Root) : Keeps T (stateResolution plat room v sets) s := by
  unfold stateResolution
  split
  · exact pure_keeps _
  · exact pure_keeps _
  · exact Ensures.act fun s' _ => ⟨clearStale_path hT _ s', fun _ _ _ _ => trivial⟩

include hT in
theorem resolveState_keeps (incoming : Root) : Keeps T (resolveState plat room v incoming) s :=
  (read_keeps _).andThen fun _ => (orElse_keeps _ _).andThen fun _ => stateResolution_keeps hT _

include hT in
theorem softFailCheck_keeps (version : RoomVersion) (pdu create : Pdu) (isPartial : Bool) (claimed : List Pdu)
    (flag : Bool) : Keeps T (softFailCheck plat room v version pdu create isPartial claimed flag) s := by
  unfold softFailCheck currentStateCheck
  split
  · refine Ensures.ask.andThen fun passes => ?_
    split
    · exact pure_keeps _
    · unfold badRedaction
      split
      · exact pure_keeps _
      · refine (read_keeps _).andThen fun target => ?_
        split
        · exact (ask_of_tick hT.tick _).andThen fun _ => (lift_keeps _).andThen fun _ => pure_keeps _
        · exact pure_keeps _
  · exact pure_keeps _

include hT in
theorem laterSoftFail_keeps (pdu : Pdu) (softFail : Bool) : Keeps T (laterSoftFail plat room pdu softFail) s := by
  unfold laterSoftFail policySpam
  split
  · exact pure_keeps _
  · refine Ensures.andThen ?_ fun spam => ?_
    · split
      · exact ask_of_tick hT.tick _
      · exact pure_keeps _
    · split
      · exact pure_keeps _
      · exact (read_keeps _).andThen fun _ => pure_keeps _

include hT in
theorem newRoomState_keeps (pdu : Pdu) (stateAt : Root) (flag recovered isPartial : Bool) :
    Keeps T (newRoomState plat room v pdu stateAt flag recovered isPartial) s := by
  unfold newRoomState
  split
  · refine (read_keeps _).andThen fun prevRoot => (read_keeps _).andThen fun current => ?_
    split
    · exact pure_keeps _
    · exact (resolveState_keeps hT _).andThen fun _ => pure_keeps _
  · split
    · exact (read_keeps _).andThen fun _ => (resolveState_keeps hT _).andThen fun _ => pure_keeps _
    · split
      · exact (read_keeps _).andThen fun _ => pure_keeps _
      · exact pure_keeps _

end

theorem Quiet.path (h : Relation.ReflTransGen (Quiet plat) s s') :
    Path plat s s' ∧ s'.eventidMetadata = s.eventidMetadata := by
  induction h with
  | refl => exact ⟨.refl, rfl⟩
  | tail _ hst ih => exact ⟨ih.1.tail hst.1, hst.2.trans ih.2⟩

theorem solo_quiet {A B : Type} {p : H A} {k : A → H B} (hp : Keeps (Quiet plat) p s)
    (hk : ∀ a s', Path plat s s' → s'.eventidMetadata = s.eventidMetadata →
      Call.Solo (Step plat) (fun _ _ => True) (k a) s') :
    Call.Solo (Step plat) (fun _ _ => True) (p >>= k) s := by
  obtain ⟨hr, hm⟩ := Quiet.path hp.solo.1
  exact Call.Solo.bind (Q := fun _ s' => s'.eventidMetadata = s.eventidMetadata) ⟨hr, fun _ _ => hm⟩ hk

theorem upgradeLocked_solo {call : Nat} {pdu : Pdu} {json : Object} {flag : Bool}
    (hh : Handed plat s.log call room pdu.eventId json flag) (htr : Traced plat s.log room pdu.eventId json)
    (create : Pdu) (version : RoomVersion) (predecessorsRecovered wasRecovered isPartial : Bool)
    (claimed : List Pdu)
    (stateAt : Root) :
    Call.Solo (Step plat) (fun _ _ => True) (upgradeLocked plat call pdu json create room v version flag
      predecessorsRecovered wasRecovered isPartial claimed stateAt) s := by
  unfold upgradeLocked
  refine Call.Solo.read ?_
  split
  · exact (pure_keeps _).solo
  · rename_i hnone
    refine solo_quiet (softFailCheck_keeps .quiet _ _ _ _ _ _) fun softFail s₁ hr₁ hm₁ => ?_
    refine solo_quiet (newRoomState_keeps .quiet _ _ _ _ _) fun roots s₂ hr₂ hm₂ => ?_
    refine solo_quiet (laterSoftFail_keeps .quiet _ _) fun failed s₃ hr₃ hm₃ => ?_
    have hr : Path plat s s₃ := (hr₁.trans hr₂).trans hr₃
    split
    · refine ((write_keeps fun s' hr' => ?_).andThen fun _ => Ensures.throw).solo
      exact hh.mono fun _ hm => Path.log (hr.trans hr') hm
    · refine solo_quiet (read_keeps _) fun prev s₄ hr₄ hm₄ => ?_
      refine solo_quiet Ensures.refuse.keeps fun _ s₅ hr₅ hm₅ => ?_
      refine Call.Solo.read (Call.Solo.bind (Q := fun _ _ => True) ⟨?_, fun _ _ => trivial⟩
        fun _ _ _ _ => (pure_keeps _).solo)
      -- nothing has entered the timeline since the lock was taken
      have hr' : Path plat s s₅ := (hr.trans hr₄).trans hr₅
      have hmeta : s₅.eventidMetadata = s.eventidMetadata := by rw [hm₅, hm₄, hm₃, hm₂, hm₁]
      refine step (.append _) ⟨hh.mono fun _ hm => Path.log hr' hm, htr.mono fun _ hm => Path.log hr' hm, ?_⟩
      simpa only [Server.getPduId, hmeta] using hnone

theorem walkBack_keeps {T : Server → Server → Prop} :
    ∀ (n : Nat) (prev : EventId) (pdu : Pdu), Keeps T (walkBack plat room n prev pdu) s
  | 0, _, _ => pure_keeps _
  | n + 1, prev, pdu => by
    unfold walkBack
    refine (read_keeps _).andThen fun root => ?_
    split
    · exact pure_keeps _
    · refine (read_keeps _).andThen fun rejected => ?_
      split
      · exact pure_keeps _
      · split
        · refine (read_keeps _).andThen fun parentPdu => ?_
          split
          · exact pure_keeps _
          · exact walkBack_keeps n _ _
        · exact pure_keeps _

theorem map_keeps {T : Server → Server → Prop} {A B : Type} {p : H A} (f : A → B) (h : Keeps T p s) :
    Keeps T (f <$> p) s :=
  Ensures.andThen h fun _ => pure_keeps _

section
variable {T : Server → Server → Prop} (hT : Allows plat T)
include hT

theorem predecessorState_keeps (n : Nat) (prevEvents : List EventId) :
    Keeps T (predecessorState plat n room v prevEvents) s := by
  unfold predecessorState
  split
  · unfold stateAtIncomingDegreeOne
    refine (read_keeps _).andThen fun pdu => ?_
    split
    · exact pure_keeps _
    · split
      · exact Ensures.throw
      · refine (walkBack_keeps _ _ _).andThen fun found => ?_
        split <;> exact pure_keeps _
  · unfold stateAtIncomingResolved
    refine (ask_of_tick hT.tick _).andThen fun order => (read_keeps _).andThen fun forks => ?_
    split
    · exact pure_keeps _
    · exact map_keeps _ (stateResolution_keeps hT _)

theorem localStateAt_keeps (n : Nat) (pdu : Pdu) : Keeps T (localStateAt plat n room v pdu) s := by
  unfold localStateAt
  refine (predecessorState_keeps hT _ _).andThen fun state => ?_
  split
  · exact pure_keeps _
  · refine ((ask_of_tick hT.tick _).andThen fun _ => pure_keeps _).andThen fun lacks => ?_
    split <;> exact pure_keeps _

end

theorem stateAtIncoming_keeps {T : Server → Server → Prop} [Grows T] [Admits plat T] (n : Nat) (origin : ServerName)
    (create pdu : Pdu) (anchor : Option EventId) :
    Keeps T (stateAtIncoming plat n origin create room v pdu anchor) s := by
  have hanchored : Keeps T (anchoredStateAt plat n origin create room v pdu anchor) s := by
    unfold anchoredStateAt
    split
    · exact pure_keeps _
    · refine (fetchState_keeps n origin create _).attempt.keeps.andThen fun r => ?_
      split
      · exact pure_keeps _
      · split
        · exact pure_keeps _
        · split
          · unfold stateAtIncomingWithFetchedPrev
            refine (read_keeps _).andThen fun forks => ?_
            split
            · exact pure_keeps _
            · exact pure_keeps _
            · split
              · exact pure_keeps _
              · exact map_keeps _ (stateResolution_keeps Admits.allows _)
          · exact pure_keeps _
  unfold stateAtIncoming fetchStateAt
  refine (localStateAt_keeps Admits.allows _ _).andThen fun state => ?_
  split
  · exact pure_keeps _
  · refine Ensures.andThen ?_ fun state => pure_keeps _
    refine hanchored.andThen fun anchored => ?_
    split
    · exact pure_keeps _
    · exact fetchState_keeps n origin create _

theorem upgrade_keeps (n : Nat) {call : Nat} {pdu : Pdu} {json : Object} {flag : Bool}
    (hh : Handed plat s.log call room pdu.eventId json flag) (htr : Traced plat s.log room pdu.eventId json)
    (create : Pdu) (origin : ServerName) (predecessorsRecovered : Bool) (anchor : Option EventId) :
    Keeps (Step plat)
      (upgradeOutlierToTimelinePdu plat n call pdu json create origin room flag
        predecessorsRecovered anchor) s := by
  unfold upgradeOutlierToTimelinePdu
  refine (read_keeps _).andThen fun position => ?_
  split
  · exact pure_keeps _
  · refine (read_keeps _).andThen fun failed => ?_
    split
    · exact Ensures.throw
    · refine (lift_keeps _).andThen fun v => (stateAtIncoming_keeps _ _ _ _ _).andThen fun state => ?_
      refine (lift_keeps _).andThen fun version => (partialServer_keeps _).andThen fun isPartial => ?_
      refine (read_keeps _).andThen fun claimed => Ensures.ask.andThen fun passes => ?_
      split
      · exact (markEventRejected_keeps _ _).andThen fun _ => Ensures.throw
      · refine Ensures.of_solo fun s' hr => ?_
        exact upgradeLocked_solo (hh.mono fun _ hm => Path.log hr hm) (htr.mono fun _ hm => Path.log hr hm)
          create version _ _ _ _ _

end

end Congruent
