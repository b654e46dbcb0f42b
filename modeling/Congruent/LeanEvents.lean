import Mathlib.Logic.Function.Basic
import Congruent.KeyedMap
import Congruent.Machine
import Congruent.PowerLevels
import Congruent.Server

/-!
# The events of state resolution (`event_handler/resolve_state.rs`)

The provider caches the events it gives to state resolution with their verdict and the level
of their sender. Lookups and verdict operations run many at a time; a step is one access to
what they share.
-/

namespace Congruent.LeanEvents

/-! ## Making an event -/

structure LeanEvent where
  eventId : EventId
  eventType : EventType
  stateKey : Option StateKey
  powerLevel : Int
  originServerTs : Nat
  sender : UserId
  content : Value
  prevEvents : List EventId
  authEvents : List EventId
  depth : Nat
  rejected : Bool

def pduToLean (pdu : Pdu) (powerLevel : Int) : LeanEvent where
  eventId := pdu.eventId
  eventType := pdu.kind
  stateKey := pdu.stateKey
  powerLevel := powerLevel
  originServerTs := pdu.originServerTs
  sender := pdu.sender
  content := pdu.content
  prevEvents := pdu.prevEvents
  authEvents := pdu.authEvents
  depth := pdu.depth
  rejected := pdu.rejected

def parseIntlike (v : Value) : Option Int := v.asI64.or (v.asStr.bind parseInt)

def levelOf (content : Value) (sender : UserId) : Int :=
  ((((content.get "users").bind Value.asObject).bind fun users => (users.get sender).bind parseIntlike).or
    ((content.get "users_default").bind parseIntlike)).getD 0

structure Found where
  createPdu : Option Pdu
  plLevel : Option Int

namespace Found

def done (f : Found) : Bool := f.createPdu.isSome && f.plLevel.isSome

def note (sender : UserId) (f : Found) : Option Pdu → Found
  | none => f
  | some pdu =>
    if isTypeAndKey pdu .roomCreate "" then { f with createPdu := some pdu }
    else if f.plLevel.isSome || !isTypeAndKey pdu .roomPowerLevels "" then f
    else { f with plLevel := some (levelOf pdu.content sender) }

def powerLevel (c : Codec) (privileged : Bool) (sender : UserId) (f : Found) : Int :=
  match f.createPdu with
  | none => f.plLevel.getD 0
  | some createPdu =>
    let content := (c.roomCreate createPdu.content).toOption
    if privileged then
      if createPdu.sender = sender || content.any fun c => (c.additionalCreators.getD []).contains
        sender then intMax
      else f.plLevel.getD 0
    else
      match f.plLevel with
      | some level => level
      | none => if createPdu.sender = sender || content.any fun c =>
        decide (c.creator = some sender) then 100 else 0

end Found

def scanAuth (fetch : EventId → Option Pdu) (sender : UserId) : Found → List EventId → Found
  | f, [] => f
  | f, id :: ids => if f.done then f else scanAuth fetch sender (f.note sender (fetch id)) ids

/-- `privileged` tells that the room version privileges the creators of the room. -/
def senderPowerLevelFromAuth (c : Codec) (privileged : Bool) (pdu : Pdu) (fetchAuth : EventId → Option Pdu) : Int :=
  if pdu.kind = .roomCreate then intMax
  else (scanAuth fetchAuth pdu.sender ⟨none, none⟩ pdu.authEvents).powerLevel c privileged pdu.sender

/-! ## Lookups and verdict operations -/

structure Shared where
  store : EventId → Option Pdu
  rejections : EventId → Option RejectionCode
  timeline : EventId → Bool
  leaneventCache : AList fun _ : EventId => LeanEvent

/-- `fetch_pdu`, before each of its accesses. -/
inductive Fetch where
  | reading
  | checkingRejected (pdu : Pdu)
  | readingReason (pdu : Pdu)
  | checkingTimeline (pdu : Pdu)
  -- `unmark_event_rejected` of a stale rejection
  | invalidating (pdu : Pdu)
  | unmarking (pdu : Pdu)

inductive Progress where
  | next (f : Fetch)
  | fetched (result : Option (Pdu × Bool))

inductive VerdictOp where
  | mark (code : RejectionCode)
  | unmark
  /-- `clear_pdu_markers`. -/
  | clear

def VerdictOp.apply : VerdictOp → Option RejectionCode → Option RejectionCode
  | .mark code, some old => if !old.isRetryable && code.isRetryable then some old else some code
  | .mark code, none => some code
  | .unmark, _ | .clear, _ => none

inductive Phase where
  -- `get_event`
  | getting
  | fetching (f : Fetch)
  | scanning (pdu : Pdu) (found : Found) (authEvent : EventId) (rest : List EventId) (f : Fetch)
  | inserting (lean : LeanEvent)
  -- a verdict operation
  | invalidating (op : VerdictOp)
  | updating (op : VerdictOp)
  | done

structure Task where
  eventId : EventId
  phase : Phase

section
variable (c : Codec) (room : RoomId) (privileged : Bool)

def Shared.getPduInRoom (s : Shared) (id : EventId) : Option Pdu :=
  (s.store id).filter fun pdu => decide (pdu.roomIdOrHash c = some room)

def Shared.fetchPdu (s : Shared) (id : EventId) (fails : Bool) : Fetch → Shared × Progress
  | .reading =>
    match s.getPduInRoom c room id with
    | some pdu => (s, .next (.checkingRejected pdu))
    | none => (s, .fetched none)
  | .checkingRejected pdu =>
    if fails then (s, .fetched none)
    else if (s.rejections id).isSome then (s, .next (.readingReason pdu))
    else (s, .fetched (some (pdu, false)))
  | .readingReason pdu =>
    if fails || decide (s.rejections id = some .authCheckFailed) then (s, .fetched (some (pdu, true)))
    else (s, .next (.checkingTimeline pdu))
  | .checkingTimeline pdu =>
    if s.timeline id then (s, .next (.invalidating pdu)) else (s, .fetched (some (pdu, true)))
  | .invalidating pdu =>
    ({ s with leaneventCache := s.leaneventCache.erase id }, .next (.unmarking pdu))
  | .unmarking pdu =>
    (if fails then s else { s with rejections := Function.update s.rejections id none },
      .fetched (some (pdu, false)))

def scanNext (pdu : Pdu) (found : Found) : List EventId → Phase
  | [] => .inserting <| pduToLean pdu (found.powerLevel c privileged pdu.sender)
  | id :: rest =>
    if found.done then .inserting <| pduToLean pdu (found.powerLevel c privileged pdu.sender)
    else .scanning pdu found id rest .reading

def scanStart (pdu : Pdu) : Phase :=
  if pdu.kind = .roomCreate then .inserting <| pduToLean pdu intMax
  else scanNext c privileged pdu ⟨none, none⟩ pdu.authEvents

/-- A task goes on, and answers what a lookup that comes to its end gives. -/
def Shared.go (s : Shared) (fails : Bool) (t : Task) : Option (Shared × Phase × Option (Option LeanEvent)) :=
  match t.phase with
  | .getting =>
    match s.leaneventCache.lookup t.eventId with
    | some lean => some (s, .done, some (some lean))
    | none => some (s, .fetching .reading, none)
  | .fetching f =>
    match s.fetchPdu c room t.eventId fails f with
    | (s, .next f) => some (s, .fetching f, none)
    | (s, .fetched none) => some (s, .done, some none)
    | (s, .fetched (some (pdu, rejected))) =>
      some (s, scanStart c privileged { pdu with rejected := rejected }, none)
  | .scanning pdu found id rest f =>
    match s.fetchPdu c room id fails f with
    | (s, .next f) => some (s, .scanning pdu found id rest f, none)
    | (s, .fetched result) =>
      -- the flag of an auth event is not read
      some (s, scanNext c privileged pdu (found.note pdu.sender (result.map (·.1))) rest, none)
  | .inserting lean =>
    some ({ s with leaneventCache := s.leaneventCache.insert t.eventId lean }, .done, some (some lean))
  | .invalidating op =>
    some ({ s with leaneventCache := s.leaneventCache.erase t.eventId }, .updating op, none)
  | .updating op =>
    some (if fails then s
      else { s with rejections := Function.update s.rejections t.eventId (op.apply (s.rejections t.eventId)) },
      .done, none)
  | .done => none

structure State where
  shared : Shared
  tasks : List Task
  /-- What the last step answered: the event looked up, and what was given for it. -/
  answered : Option (EventId × Option LeanEvent)

inductive Action where
  | arrive (pdu : Pdu) (inTimeline : Bool)
  | evict (id : EventId)
  | lookup (id : EventId)
  | verdict (id : EventId) (op : VerdictOp)
  | go (i : Nat) (fails : Bool)

def VerdictOp.start : VerdictOp → Phase
  | .clear => .updating .clear
  | op => .invalidating op

namespace State

def init : State := ⟨⟨fun _ => none, fun _ => none, fun _ => false, ∅⟩, [], none⟩

def arrive (s : Shared) (pdu : Pdu) (inTimeline : Bool) : Shared :=
  { s with
    store := Function.update s.store pdu.eventId ((s.store pdu.eventId).or (some pdu))
    timeline := Function.update s.timeline pdu.eventId (s.timeline pdu.eventId || inTimeline) }

def step : Action → State → Option State
  | .arrive pdu inTimeline, s => some ⟨arrive s.shared pdu inTimeline, s.tasks, none⟩
  | .evict id, s =>
    some ⟨{ s.shared with leaneventCache := s.shared.leaneventCache.erase id }, s.tasks, none⟩
  | .lookup id, s => some ⟨s.shared, s.tasks ++ [⟨id, .getting⟩], none⟩
  | .verdict id op, s => some ⟨s.shared, s.tasks ++ [⟨id, op.start⟩], none⟩
  | .go i fails, s =>
    s.tasks[i]?.bind fun t =>
      (s.shared.go c room privileged fails t).map fun r =>
        ⟨r.1, s.tasks.set i ⟨t.eventId, r.2.1⟩, r.2.2.map fun answer => (t.eventId, answer)⟩

end State

/-! ## Afresh -/

namespace Shared

/-- Whether an event counts as rejected: an auth failure does, and any other rejection of an
event that is not in the timeline. -/
def flag (s : Shared) (id : EventId) : Bool :=
  (s.rejections id).any fun code => decide (code = .authCheckFailed) || !s.timeline id

def fresh (s : Shared) (id : EventId) : Option LeanEvent :=
  (s.getPduInRoom c room id).map fun pdu =>
    pduToLean { pdu with rejected := s.flag id }
      (senderPowerLevelFromAuth c privileged pdu (s.getPduInRoom c room))

end Shared

/-! ## Updates that no cached event notices -/

/-- The lookup has read a rejection of the event, and has not come to a verdict on it. -/
def Fetch.isDeciding : Fetch → Bool
  | .reading | .checkingRejected _ => false
  | .readingReason _ | .checkingTimeline _ | .invalidating _ | .unmarking _ => true

def Fetch.readsVerdict : Fetch → Bool
  | .checkingRejected _ | .readingReason _ => true
  | _ => false

def Task.fetch : Task → Option (EventId × Fetch)
  | ⟨id, .fetching f⟩ => some (id, f)
  | ⟨_, .scanning _ _ id _ f⟩ => some (id, f)
  | _ => none

def Phase.isDone : Phase → Bool
  | .done => true
  | _ => false

def Phase.update : Phase → Option VerdictOp
  | .updating op => some op
  | _ => none

def Phase.isComputing : Phase → Bool
  | .scanning .. | .inserting _ => true
  | _ => false

namespace State

def active (s : State) : List EventId :=
  s.shared.leaneventCache.keys ++ (s.tasks.filter fun t => t.phase.isComputing).map (·.eventId)

def isDeciding (s : State) (id : EventId) : Bool :=
  s.tasks.any fun t => t.fetch.any fun p => decide (p.1 = id) && p.2.isDeciding

/-- A verdict is updated while no lookup decides on the event, and without changing the flag
of an event that is cached. -/
def QuietUpdate (s : State) (id : EventId) (rejection : Option RejectionCode) : Prop :=
  rejection = s.shared.rejections id ∨
    s.isDeciding id = false ∧
      (id ∈ s.active →
        { s.shared with rejections := Function.update s.shared.rejections id rejection }.flag id = s.shared.flag id)

/-- An event arrives without changing the flag of a cached event, and not after an event
that is cached and cites it for its auth. -/
def QuietArrival (s : State) (pdu : Pdu) (inTimeline : Bool) : Prop :=
  (pdu.eventId ∈ s.active → (arrive s.shared pdu inTimeline).flag pdu.eventId = s.shared.flag pdu.eventId) ∧
    ((s.shared.store pdu.eventId).isNone = true → ∀ id ∈ s.active,
      ((s.shared.store id).any fun ev => ev.authEvents.contains pdu.eventId) = false)

def Quiet : Action → State → Prop
  | .arrive pdu inTimeline, s => s.QuietArrival pdu inTimeline
  | .go i fails, s =>
    ∀ t ∈ s.tasks[i]?, (fails = true → (t.fetch.any fun p => p.2.readsVerdict) = false) ∧
      ∀ op ∈ t.phase.update, fails = true ∨
        s.QuietUpdate t.eventId (op.apply (s.shared.rejections t.eventId))
  | .evict _, _ | .lookup _, _ | .verdict _ _, _ => True

instance (s : State) (id : EventId) (rejection : Option RejectionCode) : Decidable (s.QuietUpdate id rejection) :=
  inferInstanceAs (Decidable (_ ∨ _ ∧ (_ → _)))

instance (s : State) (pdu : Pdu) (inTimeline : Bool) : Decidable (s.QuietArrival pdu inTimeline) :=
  inferInstanceAs (Decidable ((_ → _) ∧ (_ → _)))

instance : ∀ (a : Action) (s : State), Decidable (Quiet a s)
  | .arrive pdu inTimeline, s => inferInstanceAs (Decidable (s.QuietArrival pdu inTimeline))
  | .go i fails, s =>
    inferInstanceAs
      (Decidable (∀ t ∈ s.tasks[i]?, (fails = true → (t.fetch.any fun p => p.2.readsVerdict) = false) ∧
      ∀ op ∈ t.phase.update, fails = true ∨
        s.QuietUpdate t.eventId (op.apply (s.shared.rejections t.eventId))))
  | .evict _, _ | .lookup _, _ | .verdict _ _, _ => .isTrue trivial

end State

end

section
variable {c : Codec} {room : RoomId} {privileged : Bool} {s s' : Shared} {id : EventId}

/-! ## One fetch -/

/-- What a fetch of the event has read, seen from the state now: a rejection that is gone
was one of an event in the timeline. -/
def FetchOk (c : Codec) (room : RoomId) (s : Shared) (id : EventId) : Fetch → Prop
  | .reading => True
  | .checkingRejected pdu => s.getPduInRoom c room id = some pdu
  | .readingReason pdu =>
    s.getPduInRoom c room id = some pdu ∧ (s.rejections id = none → s.timeline id = true)
  | .checkingTimeline pdu =>
    s.getPduInRoom c room id = some pdu ∧ (s.rejections id = none → s.timeline id = true) ∧
      s.rejections id ≠ some .authCheckFailed
  | .invalidating pdu | .unmarking pdu =>
    s.getPduInRoom c room id = some pdu ∧ s.timeline id = true ∧ s.rejections id ≠ some .authCheckFailed

/-- Only stale rejections go, and cached events. -/
structure Settles (s s' : Shared) : Prop where
  store : s'.store = s.store
  timeline : s'.timeline = s.timeline
  rejections : ∀ id, s'.rejections id = s.rejections id ∨
    s'.rejections id = none ∧ s.timeline id = true ∧ s.rejections id ≠ some .authCheckFailed
  cache : ∀ id lean, s'.leaneventCache.lookup id = some lean → s.leaneventCache.lookup id = some lean

theorem Settles.refl (s : Shared) : Settles s s := ⟨rfl, rfl, fun _ => .inl rfl, fun _ _ h => h⟩

theorem Settles.erase (s : Shared) (id : EventId) :
    Settles s { s with leaneventCache := s.leaneventCache.erase id } := by
  refine ⟨rfl, rfl, fun _ => .inl rfl, fun id' lean hlean => ?_⟩
  simp only at hlean
  rw [AList.lookup_erase_eq] at hlean
  split at hlean
  · cases hlean
  · exact hlean

theorem flag_false (htimeline : s.timeline id = true) (hcode : s.rejections id ≠ some .authCheckFailed) :
    s.flag id = false := by
  unfold Shared.flag
  cases h : s.rejections id with
  | none => rfl
  | some code =>
    have hne : code ≠ .authCheckFailed := fun heq => hcode (by rw [h, heq])
    simp [htimeline, hne]

namespace Settles

theorem getPduInRoom (h : Settles s s') : s'.getPduInRoom c room = s.getPduInRoom c room := by
  funext id
  unfold Shared.getPduInRoom
  rw [h.store]

theorem flag (h : Settles s s') (id : EventId) : s'.flag id = s.flag id := by
  rcases h.rejections id with hsame | ⟨hnone, htimeline, hcode⟩
  · unfold Shared.flag
    rw [hsame, h.timeline]
  · rw [flag_false htimeline hcode]
    unfold Shared.flag
    rw [hnone]
    rfl

theorem fetchOk (h : Settles s s') {f : Fetch} (hf : FetchOk c room s id f) : FetchOk c room s' id f := by
  have hgone : (s.rejections id = none → s.timeline id = true) → s'.rejections id = none →
      s'.timeline id = true := by
    rw [h.timeline]
    rcases h.rejections id with hsame | ⟨-, htimeline, -⟩
    · rw [hsame]
      exact fun hold => hold
    · exact fun _ _ => htimeline
  have hcode : s.rejections id ≠ some .authCheckFailed → s'.rejections id ≠ some .authCheckFailed := by
    rcases h.rejections id with hsame | ⟨hnone, -, -⟩
    · rw [hsame]
      exact fun hold => hold
    · rw [hnone]
      exact fun _ => nofun
  cases f with
  | reading => trivial
  | checkingRejected pdu => exact (congrFun h.getPduInRoom id).trans hf
  | readingReason pdu => exact ⟨(congrFun h.getPduInRoom id).trans hf.1, hgone hf.2⟩
  | checkingTimeline pdu => exact ⟨(congrFun h.getPduInRoom id).trans hf.1, hgone hf.2.1, hcode hf.2.2⟩
  | invalidating pdu | unmarking pdu =>
    exact ⟨(congrFun h.getPduInRoom id).trans hf.1, (congrFun h.timeline id).trans hf.2.1, hcode hf.2.2⟩

end Settles

/-- A fetch comes to what is stored, with the flag it has then. -/
theorem fetchPdu_spec {fails : Bool} {f : Fetch} {p : Progress} (hf : FetchOk c room s id f)
    (hfails : fails = true → f.readsVerdict = false) (h : s.fetchPdu c room id fails f = (s', p)) :
    Settles s s' ∧ match p with
      | .next f' => FetchOk c room s' id f'
      | .fetched result => result = (s'.getPduInRoom c room id).map fun pdu => (pdu, s'.flag id) := by
  have hreads : f.readsVerdict = true → fails = false := by
    intro hr
    by_contra hne
    rw [hfails (Bool.not_eq_false _ |>.mp hne)] at hr
    cases hr
  cases f with
  | reading =>
    simp only [Shared.fetchPdu] at h
    split at h
    · rename_i pdu hpdu
      cases h
      exact ⟨.refl s, hpdu⟩
    · rename_i hpdu
      cases h
      refine ⟨.refl s, ?_⟩
      simp only [hpdu, Option.map_none]
  | checkingRejected pdu =>
    rw [hreads rfl] at h
    simp only [Shared.fetchPdu, Bool.false_eq_true, if_false] at h
    have hpdu : s.getPduInRoom c room id = some pdu := hf
    split at h
    · rename_i hsome
      cases h
      refine ⟨.refl s, hpdu, fun hnone => ?_⟩
      rw [hnone] at hsome
      cases hsome
    · rename_i hnone
      cases h
      refine ⟨.refl s, ?_⟩
      rw [Bool.not_eq_true, Option.isSome_eq_false_iff, Option.isNone_iff_eq_none] at hnone
      simp only [hpdu, Option.map_some, Shared.flag, hnone, Option.any_none]
  | readingReason pdu =>
    rw [hreads rfl] at h
    simp only [Shared.fetchPdu, Bool.false_or, decide_eq_true_eq] at h
    obtain ⟨hpdu, hgone⟩ := hf
    split at h
    · rename_i hcode
      cases h
      refine ⟨.refl s, ?_⟩
      simp [hpdu, Shared.flag, hcode]
    · rename_i hcode
      cases h
      exact ⟨.refl s, hpdu, hgone, hcode⟩
  | checkingTimeline pdu =>
    simp only [Shared.fetchPdu] at h
    obtain ⟨hpdu, hgone, hcode⟩ := hf
    split at h
    · rename_i htimeline
      cases h
      exact ⟨.refl s, hpdu, htimeline, hcode⟩
    · rename_i htimeline
      cases h
      refine ⟨.refl s, ?_⟩
      obtain ⟨code, hsome⟩ := Option.ne_none_iff_exists'.mp fun hnone => htimeline (hgone hnone)
      simp [hpdu, Shared.flag, hsome, htimeline]
  | invalidating pdu =>
    cases h
    exact ⟨.erase s id, hf⟩
  | unmarking pdu =>
    cases h
    obtain ⟨hpdu, htimeline, hcode⟩ := hf
    have hsettles : Settles s
        (if fails then s else { s with rejections := Function.update s.rejections id none }) := by
      split
      · exact .refl s
      · refine ⟨rfl, rfl, fun id' => ?_, fun _ _ hlean => hlean⟩
        by_cases hid : id' = id
        · subst hid
          exact .inr ⟨Function.update_self .., htimeline, hcode⟩
        · exact .inl (Function.update_of_ne hid ..)
    refine ⟨hsettles, ?_⟩
    simp only [hsettles.getPduInRoom, hpdu, hsettles.flag, flag_false htimeline hcode, Option.map_some]

/-! ## What an event is made of -/

theorem scanAuth_congr {fetch fetch' : EventId → Option Pdu} {sender : UserId} {ids : List EventId}
    (h : ∀ id ∈ ids, fetch' id = fetch id) (found : Found) :
    scanAuth fetch' sender found ids = scanAuth fetch sender found ids := by
  induction ids generalizing found with
  | nil => rfl
  | cons id ids ih =>
    rw [scanAuth, scanAuth, h id List.mem_cons_self, ih fun id' hid' => h id' (List.mem_cons_of_mem id hid')]

/-- Nothing changes of what the event is made of. -/
structure SameFor (c : Codec) (room : RoomId) (s s' : Shared) (id : EventId) : Prop where
  pdu : s'.getPduInRoom c room id = s.getPduInRoom c room id
  flag : s'.flag id = s.flag id
  auth : ∀ pdu, s.getPduInRoom c room id = some pdu → ∀ x ∈ pdu.authEvents,
    s'.getPduInRoom c room x = s.getPduInRoom c room x

theorem Settles.sameFor (h : Settles s s') (id : EventId) : SameFor c room s s' id :=
  ⟨congrFun h.getPduInRoom id, h.flag id, fun _ _ x _ => congrFun h.getPduInRoom x⟩

theorem SameFor.fresh (h : SameFor c room s s' id) :
    s'.fresh c room privileged id = s.fresh c room privileged id := by
  unfold Shared.fresh
  rw [h.pdu, h.flag]
  cases hpdu : s.getPduInRoom c room id with
  | none => rfl
  | some pdu =>
    simp only [Option.map_some, senderPowerLevelFromAuth]
    rw [scanAuth_congr (h.auth pdu hpdu)]

/-- What is left to scan makes the event as it would be made afresh. -/
structure ScanOk (c : Codec) (room : RoomId) (privileged : Bool) (s : Shared) (id : EventId) (pdu : Pdu)
    (found : Found) (ids : List EventId) : Prop where
  auth : ∀ x ∈ ids, x ∈ pdu.authEvents
  fresh : s.fresh c room privileged id = some ( pduToLean pdu
    ((scanAuth (s.getPduInRoom c room) pdu.sender found ids).powerLevel c privileged pdu.sender))

theorem ScanOk.same {pdu : Pdu} {found : Found} {ids : List EventId}
    (h : ScanOk c room privileged s id pdu found ids)
    (hsame : SameFor c room s s' id) : ScanOk c room privileged s' id pdu found ids := by
  refine ⟨h.auth, ?_⟩
  rw [hsame.fresh, h.fresh, scanAuth_congr]
  intro x hx
  obtain ⟨stored, hstored, heq⟩ := Option.map_eq_some_iff.mp h.fresh
  have hauth : stored.authEvents = pdu.authEvents := congrArg LeanEvent.authEvents heq
  exact (hsame.auth stored hstored x (hauth ▸ h.auth x hx)).symm

/-! ## Tasks -/

def TaskOk (c : Codec) (room : RoomId) (privileged : Bool) (s : Shared) (id : EventId) : Phase → Prop
  | .fetching f => FetchOk c room s id f
  | .scanning pdu found x rest f =>
    found.done = false ∧ ScanOk c room privileged s id pdu found (x :: rest) ∧ FetchOk c room s x f
  | .inserting lean => s.fresh c room privileged id = some lean
  | .getting | .invalidating _ | .updating _ | .done => True

theorem scanNext_ok {pdu : Pdu} {found : Found} {ids : List EventId}
    (h : ScanOk c room privileged s id pdu found ids) :
    TaskOk c room privileged s id (scanNext c privileged pdu found ids) := by
  have hfresh := h.fresh
  cases ids with
  | nil => exact hfresh
  | cons x rest =>
    rw [scanNext]
    split
    · rename_i hdone
      rw [scanAuth, if_pos hdone] at hfresh
      exact hfresh
    · rename_i hdone
      exact ⟨Bool.not_eq_true _ |>.mp hdone, h, trivial⟩

theorem scanStart_ok {pdu : Pdu} (hpdu : s.getPduInRoom c room id = some pdu) :
    TaskOk c room privileged s id (scanStart c privileged { pdu with rejected := s.flag id }) := by
  have hfresh : s.fresh c room privileged id = some ( pduToLean { pdu with rejected := s.flag id }
      (senderPowerLevelFromAuth c privileged pdu (s.getPduInRoom c room))) := by
    unfold Shared.fresh
    rw [hpdu, Option.map_some]
  unfold senderPowerLevelFromAuth at hfresh
  unfold scanStart
  split
  · rename_i hkind
    rw [if_pos hkind] at hfresh
    exact hfresh
  · rename_i hkind
    rw [if_neg hkind] at hfresh
    exact scanNext_ok ⟨fun x hx => hx, hfresh⟩

theorem ScanOk.note {pdu : Pdu} {found : Found} {x : EventId} {rest : List EventId}
    (h : ScanOk c room privileged s id pdu found (x :: rest)) (hdone : found.done = false) :
    ScanOk c room privileged s id pdu (found.note pdu.sender (s.getPduInRoom c room x)) rest := by
  refine ⟨fun y hy => h.auth y (List.mem_cons_of_mem x hy), ?_⟩
  have hfresh := h.fresh
  rw [scanAuth, if_neg (by rw [hdone]; decide)] at hfresh
  exact hfresh

def CacheOk (c : Codec) (room : RoomId) (privileged : Bool) (s : Shared) : Prop :=
  ∀ id lean, s.leaneventCache.lookup id = some lean → s.fresh c room privileged id = some lean

/-- The step is not noticed by cached events and by other tasks. -/
structure Kept (c : Codec) (room : RoomId) (privileged : Bool) (s s' : Shared) : Prop where
  same : ∀ id, SameFor c room s s' id
  fetch : ∀ id f, FetchOk c room s id f → FetchOk c room s' id f
  cache : CacheOk c room privileged s'

theorem Settles.kept (h : Settles s s') (hcache : CacheOk c room privileged s) : Kept c room privileged s s' := by
  refine ⟨fun id => h.sameFor id, fun id f hf => h.fetchOk hf, fun id lean hlean => ?_⟩
  rw [(h.sameFor id).fresh]
  exact hcache id lean (h.cache id lean hlean)

theorem unanswered {A : Type} {p : Prop} {r : A} (h : none = some r) : p := by
  cases h

theorem go_spec {fails : Bool} {t : Task} {phase : Phase} {answer : Option (Option LeanEvent)}
    (hcache : CacheOk c room privileged s) (ht : TaskOk c room privileged s t.eventId t.phase)
    (hfails : fails = true → (t.fetch.any fun p => p.2.readsVerdict) = false)
    (hupdate : ∀ op ∈ t.phase.update, fails = true)
    (h : s.go c room privileged fails t = some (s', phase, answer)) :
    Kept c room privileged s s' ∧ TaskOk c room privileged s' t.eventId phase ∧
      ∀ r, answer = some r → r = s'.fresh c room privileged t.eventId := by
  obtain ⟨id, phase'⟩ := t
  cases phase' with
  | getting =>
    simp only [Shared.go] at h
    split at h
    · rename_i lean hlean
      cases h
      refine ⟨(Settles.refl s).kept hcache, trivial, fun r hr => ?_⟩
      rw [← Option.some.inj hr]
      exact (hcache id lean hlean).symm
    · cases h
      exact ⟨(Settles.refl s).kept hcache, trivial, fun _ => unanswered⟩
  | fetching f =>
    have hread : fails = true → f.readsVerdict = false := hfails
    simp only [Shared.go] at h
    split at h
    · rename_i s₁ f' hgo
      cases h
      obtain ⟨hs, hf'⟩ := fetchPdu_spec ht hread hgo
      exact ⟨hs.kept hcache, hf', fun _ => unanswered⟩
    · rename_i s₁ hgo
      cases h
      obtain ⟨hs, hresult⟩ := fetchPdu_spec ht hread hgo
      refine ⟨hs.kept hcache, trivial, fun r hr => ?_⟩
      have hnone := Option.map_eq_none_iff.mp hresult.symm
      rw [← Option.some.inj hr, Shared.fresh, hnone]
      rfl
    · rename_i s₁ pdu rejected hgo
      cases h
      obtain ⟨hs, hresult⟩ := fetchPdu_spec ht hread hgo
      obtain ⟨stored, hstored, heq⟩ := Option.map_eq_some_iff.mp hresult.symm
      obtain ⟨rfl, rfl⟩ := Prod.mk.inj heq
      exact ⟨hs.kept hcache, scanStart_ok hstored, fun _ => unanswered⟩
  | scanning pdu found x rest f =>
    have hread : fails = true → f.readsVerdict = false := hfails
    obtain ⟨hdone, hscan, hf⟩ := ht
    simp only [Shared.go] at h
    split at h
    · rename_i s₁ f' hgo
      cases h
      obtain ⟨hs, hf'⟩ := fetchPdu_spec hf hread hgo
      exact ⟨hs.kept hcache, ⟨hdone, hscan.same (hs.sameFor id), hf'⟩, fun _ => unanswered⟩
    · rename_i s₁ result hgo
      cases h
      obtain ⟨hs, hresult⟩ := fetchPdu_spec hf hread hgo
      have hfst : result.map (·.1) = s'.getPduInRoom c room x := by
        rw [hresult]
        cases s'.getPduInRoom c room x <;> rfl
      rw [hfst]
      exact ⟨hs.kept hcache, scanNext_ok ((hscan.same (hs.sameFor id)).note hdone), fun _ => unanswered⟩
  | inserting lean =>
    cases h
    have hfresh : s.fresh c room privileged id = some lean := ht
    refine ⟨⟨fun _ => ⟨rfl, rfl, fun _ _ _ _ => rfl⟩,
      fun _ f hf => by cases f <;> exact hf, fun id' lean' hlean => ?_⟩,
      trivial, fun r hr => ?_⟩
    · simp only at hlean
      rw [AList.lookup_insert_ite] at hlean
      split at hlean
      · rename_i hid
        rw [hid, ← hlean]
        exact hfresh
      · exact hcache id' lean' hlean
    · rw [← Option.some.inj hr]
      exact hfresh.symm
  | invalidating op =>
    cases h
    exact ⟨(Settles.erase s id).kept hcache, trivial, fun _ => unanswered⟩
  | updating op =>
    have hno : fails = true := hupdate op rfl
    simp only [Shared.go, hno, if_true, Option.some.injEq, Prod.mk.injEq] at h
    obtain ⟨rfl, rfl, rfl⟩ := h
    exact ⟨(Settles.refl s).kept hcache, trivial, fun _ => unanswered⟩
  | done => cases h

/-! ## Runs -/

theorem TaskOk.same {t : Task} (h : TaskOk c room privileged s t.eventId t.phase)
    (hsame : t.phase.isComputing = true → SameFor c room s s' t.eventId)
    (hfetch : ∀ p ∈ t.fetch, FetchOk c room s p.1 p.2 → FetchOk c room s' p.1 p.2) :
    TaskOk c room privileged s' t.eventId t.phase := by
  obtain ⟨id, phase⟩ := t
  cases phase with
  | fetching f => exact hfetch (id, f) rfl h
  | scanning pdu found x rest f => exact ⟨h.1, h.2.1.same (hsame rfl), hfetch (x, f) rfl h.2.2⟩
  | inserting lean => exact ((hsame rfl).fresh).trans h
  | getting | invalidating op | updating op | done => trivial

structure Coherent (c : Codec) (room : RoomId) (privileged : Bool) (s : State) : Prop where
  cache : CacheOk c room privileged s.shared
  tasks : ∀ t ∈ s.tasks, TaskOk c room privileged s.shared t.eventId t.phase
  answered : ∀ id r, s.answered = some (id, r) → r = s.shared.fresh c room privileged id

namespace Coherent

variable {st st' : State}

theorem fresh_of_active (h : Coherent c room privileged st) (hid : id ∈ st.active) :
    st.shared.fresh c room privileged id ≠ none := by
  rcases List.mem_append.mp hid with hcached | htask
  · obtain ⟨lean, hlean⟩ := Option.isSome_iff_exists.mp (AList.lookup_isSome.mpr (AList.mem_keys.mpr hcached))
    rw [h.cache id lean hlean]
    exact Option.some_ne_none _
  · obtain ⟨t, ht, rfl⟩ := List.mem_map.mp htask
    obtain ⟨ht, hcomputing⟩ := List.mem_filter.mp ht
    have hok := h.tasks t ht
    obtain ⟨id, phase⟩ := t
    cases phase with
    | scanning pdu found x rest f =>
      rw [hok.2.1.fresh]
      exact Option.some_ne_none _
    | inserting lean =>
      have hfresh : st.shared.fresh c room privileged id = some lean := hok
      rw [hfresh]
      exact Option.some_ne_none _
    | getting | fetching f | invalidating op | updating op | done => cases hcomputing

theorem of_same (h : Coherent c room privileged st) {shared : Shared}
    (hcache : shared.leaneventCache = st.shared.leaneventCache)
    (hsame : ∀ id ∈ st.active, SameFor c room st.shared shared id)
    (hfetch : ∀ t ∈ st.tasks, ∀ p ∈ t.fetch, FetchOk c room st.shared p.1 p.2 → FetchOk c room shared p.1 p.2) :
    CacheOk c room privileged shared ∧ ∀ t ∈ st.tasks, TaskOk c room privileged shared t.eventId t.phase := by
  refine ⟨fun id lean hlean => ?_, fun t ht => (h.tasks t ht).same (fun hcomputing => ?_) (hfetch t ht)⟩
  · rw [hcache] at hlean
    have hmem : id ∈ st.shared.leaneventCache.keys :=
      AList.mem_keys.mp (AList.lookup_isSome.mp (by rw [hlean]; rfl))
    rw [(hsame id (List.mem_append_left _ hmem)).fresh]
    exact h.cache id lean hlean
  · exact hsame t.eventId (List.mem_append_right _ (List.mem_map_of_mem (List.mem_filter.mpr ⟨ht, hcomputing⟩)))

theorem update (h : Coherent c room privileged st) {rejection : Option RejectionCode}
    (hquiet : st.QuietUpdate id rejection) :
    CacheOk c room privileged { st.shared with rejections := Function.update st.shared.rejections id rejection } ∧
      ∀ t ∈ st.tasks, TaskOk c room privileged
        { st.shared with rejections := Function.update st.shared.rejections id rejection } t.eventId t.phase := by
  rcases hquiet with rfl | ⟨hdeciding, hflag⟩
  · rw [Function.update_eq_self]
    exact ⟨h.cache, h.tasks⟩
  · refine h.of_same rfl (fun id' hid' => ⟨rfl, ?_, fun _ _ _ _ => rfl⟩) fun t ht p hp hf => ?_
    · by_cases hid : id' = id
      · rw [hid]
        exact hflag (hid ▸ hid')
      · unfold Shared.flag
        simp only [Function.update_of_ne hid]
    · by_cases hid : p.1 = id
      · -- nothing of a verdict was read so far
        have hnot : p.2.isDeciding = false := by
          by_contra hdec
          rw [Bool.not_eq_false] at hdec
          refine absurd hdeciding ?_
          rw [Bool.not_eq_false, State.isDeciding, List.any_eq_true]
          exact ⟨t, ht, by rw [Option.mem_def.mp hp]; simp [hid, hdec]⟩
        obtain ⟨x, f⟩ := p
        cases f with
        | reading => trivial
        | checkingRejected pdu => exact hf
        | readingReason pdu | checkingTimeline pdu | invalidating pdu | unmarking pdu => cases hnot
      · obtain ⟨x, f⟩ := p
        have hsame : Function.update st.shared.rejections id rejection x = st.shared.rejections x :=
          Function.update_of_ne hid ..
        cases f <;> simp only [FetchOk, hsame] at hf ⊢ <;> exact hf

theorem getPduInRoom_arrive {s : Shared} {pdu : Pdu} {inTimeline : Bool}
    (h : (s.store pdu.eventId).isNone = true → id ≠ pdu.eventId) :
    (State.arrive s pdu inTimeline).getPduInRoom c room id = s.getPduInRoom c room id := by
  unfold Shared.getPduInRoom State.arrive
  by_cases hid : id = pdu.eventId
  · obtain ⟨stored, hstored⟩ := Option.ne_none_iff_exists'.mp fun hnone =>
      h (Option.isNone_iff_eq_none.mpr hnone) hid
    simp only [hid, Function.update_self, hstored, Option.some_or]
  · simp only [Function.update_of_ne hid]

theorem arrive (h : Coherent c room privileged st) {pdu : Pdu} {inTimeline : Bool}
    (hquiet : st.QuietArrival pdu inTimeline) :
    CacheOk c room privileged (State.arrive st.shared pdu inTimeline) ∧
      ∀ t ∈ st.tasks, TaskOk c room privileged (State.arrive st.shared pdu inTimeline) t.eventId t.phase := by
  obtain ⟨hflag, hcites⟩ := hquiet
  refine h.of_same rfl (fun id hid => ?_) fun t _ p _ hf => ?_
  · have hstored : st.shared.getPduInRoom c room id ≠ none := by
      intro hnone
      have hfresh := h.fresh_of_active hid
      unfold Shared.fresh at hfresh
      rw [hnone] at hfresh
      exact hfresh rfl
    have hsome : ∀ ev, st.shared.getPduInRoom c room id = some ev → st.shared.store id = some ev :=
      fun ev hev => (Option.filter_eq_some_iff.mp hev).1
    refine ⟨getPduInRoom_arrive ?_, ?_, fun ev hev x hx => getPduInRoom_arrive ?_⟩
    · rintro hnone rfl
      obtain ⟨ev, hev⟩ := Option.ne_none_iff_exists'.mp hstored
      rw [hsome ev hev] at hnone
      cases hnone
    · by_cases hev : id = pdu.eventId
      · rw [hev]
        exact hflag (hev ▸ hid)
      · unfold Shared.flag State.arrive
        simp only [Function.update_of_ne hev]
    · rintro hnone rfl
      have hnot := hcites hnone id hid
      rw [hsome ev hev] at hnot
      simp [hx] at hnot
  · obtain ⟨x, f⟩ := p
    have hkeep : ∀ ev, st.shared.getPduInRoom c room x = some ev →
        (State.arrive st.shared pdu inTimeline).getPduInRoom c room x = some ev := by
      intro ev hev
      rw [getPduInRoom_arrive]
      · exact hev
      · rintro hnone rfl
        rw [(Option.filter_eq_some_iff.mp hev).1] at hnone
        cases hnone
    have htimeline : st.shared.timeline x = true → (State.arrive st.shared pdu inTimeline).timeline x = true := by
      intro hx
      unfold State.arrive
      by_cases hev : x = pdu.eventId
      · simp only [hev, Function.update_self]
        rw [← hev, hx]
        rfl
      · simp only [Function.update_of_ne hev]
        exact hx
    cases f with
    | reading => trivial
    | checkingRejected ev => exact hkeep ev hf
    | readingReason ev => exact ⟨hkeep ev hf.1, fun hnone => htimeline (hf.2 hnone)⟩
    | checkingTimeline ev => exact ⟨hkeep ev hf.1, fun hnone => htimeline (hf.2.1 hnone), hf.2.2⟩
    | invalidating ev | unmarking ev => exact ⟨hkeep ev hf.1, htimeline hf.2.1, hf.2.2⟩

theorem step {a : Action} (h : Coherent c room privileged st) (hok : State.Quiet a st)
    (hs : State.step c room privileged a st = some st') : Coherent c room privileged st' := by
  cases a with
  | arrive pdu inTimeline =>
    cases hs
    obtain ⟨hcache, htasks⟩ := h.arrive hok
    exact ⟨hcache, htasks, fun _ _ => unanswered⟩
  | evict id =>
    cases hs
    have hkept := (Settles.erase st.shared id).kept h.cache
    refine ⟨hkept.cache, fun t ht => ?_, fun _ _ => unanswered⟩
    exact (h.tasks t ht).same (fun _ => hkept.same _) fun p _ hf => hkept.fetch p.1 p.2 hf
  | lookup id =>
    cases hs
    refine ⟨h.cache, fun t ht => ?_, fun _ _ => unanswered⟩
    rcases List.mem_append.mp ht with ht | ht
    · exact h.tasks t ht
    · rw [List.mem_singleton.mp ht]
      trivial
  | verdict id op =>
    cases hs
    refine ⟨h.cache, fun t ht => ?_, fun _ _ => unanswered⟩
    rcases List.mem_append.mp ht with ht | ht
    · exact h.tasks t ht
    · rw [List.mem_singleton.mp ht]
      cases op <;> trivial
  | go i fails =>
    obtain ⟨t, ht, hs⟩ := Option.bind_eq_some_iff.mp hs
    obtain ⟨⟨shared, phase, answer⟩, hgo, rfl⟩ := Option.map_eq_some_iff.mp hs
    obtain ⟨hreads, hupdates⟩ := hok t ht
    have htask := h.tasks t (List.mem_of_getElem? ht)
    by_cases hupdate : ∀ op ∈ t.phase.update, fails = true
    · obtain ⟨hkept, hphase, hanswer⟩ := go_spec h.cache htask hreads hupdate hgo
      refine ⟨hkept.cache, fun t' ht' => ?_, fun id r hr => ?_⟩
      · rcases mem_set_of_some ht ht' with rfl | ⟨j, -, hj⟩
        · exact hphase
        · exact (h.tasks t' (List.mem_of_getElem? hj)).same (fun _ => hkept.same _) fun p _ hf =>
            hkept.fetch p.1 p.2 hf
      · obtain ⟨r', hr', heq⟩ := Option.map_eq_some_iff.mp hr
        obtain ⟨rfl, rfl⟩ := Prod.mk.inj heq
        exact hanswer r' hr'
    · -- a verdict is updated
      push Not at hupdate
      obtain ⟨op, hop, hfails⟩ := hupdate
      obtain ⟨hcache, htasks⟩ := h.update ((hupdates op hop).resolve_left hfails)
      obtain ⟨id, phase'⟩ := t
      cases phase' with
      | updating op' =>
        cases hop
        simp only [Shared.go, hfails, Option.some.injEq, Prod.mk.injEq] at hgo
        obtain ⟨rfl, rfl, rfl⟩ := hgo
        refine ⟨hcache, fun t' ht' => ?_, fun _ _ => unanswered⟩
        rcases mem_set_of_some ht ht' with rfl | ⟨j, -, hj⟩
        · trivial
        · exact htasks t' (List.mem_of_getElem? hj)
      | getting | fetching f | scanning pdu found x rest f | inserting lean | invalidating op' | done => cases hop

theorem init : Coherent c room privileged .init := by
  refine ⟨fun id lean hlean => ?_, fun t ht => ?_, fun _ _ => unanswered⟩
  · simp [State.init] at hlean
  · cases ht

end Coherent

namespace State

variable {st : State}

end State

end

namespace State

/-! ## A marked event -/

def topicArrives (id : EventId) : Action :=
  .arrive (stateEvent id "@alice:a" (.other "m.room.topic") "" [("topic", .str "x")] ["$c"]) true

def createArrives : Action :=
  .arrive (stateEvent "$c" "@alice:a" .roomCreate "" [("creator", .str "@alice:a")] []) true

end State

end Congruent.LeanEvents
