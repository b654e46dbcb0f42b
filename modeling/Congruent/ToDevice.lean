import Congruent.KeyedMap
import Congruent.Machine

/-!
# To-device messages of other servers

The handling of to-device EDUs (`handle_edu_direct_to_device`). The handlings of one
transaction, of several, and the users of one message are all served concurrently: a
step is what one of them does between two awaits.
-/

namespace Congruent.ToDevice

abbrev DeviceId := String
abbrev TransactionId := String
abbrev ServerName := String

structure UserId where
  localpart : String
  serverName : ServerName
  deriving DecidableEq

def UserId.asBytes (user : UserId) : List UInt8 :=
  ("@" ++ user.localpart ++ ":" ++ user.serverName).toUTF8.data.toList

inductive DeviceIdOrAllDevices where
  | deviceId (id : DeviceId)
  | allDevices
  deriving DecidableEq

abbrev Events := AList fun _ : DeviceIdOrAllDevices => String

structure DirectDeviceContent where
  sender : UserId
  evType : String
  messageId : TransactionId
  messages : AList fun _ : UserId => Events

/-- A row of a device's queue. The message id is not stored with it. -/
structure Row (V : Type) where
  user : UserId
  device : DeviceId
  count : Nat
  evType : String
  sender : UserId
  content : V
  messageId : TransactionId

/-- How far the loop over the events of one user has got: its activity is asked for, it
goes to the next event, or it sends one event to all devices. -/
inductive Progress (V : Type) where
  | waiting (events : Events)
  | next (rest : List (Σ _ : DeviceIdOrAllDevices, String))
  | all (event : V) (devices : List DeviceId) (rest : List (Σ _ : DeviceIdOrAllDevices, String))

inductive Phase (V : Type) where
  | received
  | sending (users : AList fun _ : UserId => Progress V)
  | finished

/-- The handling of one EDU. -/
structure Task (V : Type) where
  origin : ServerName
  content : DirectDeviceContent
  phase : Phase V

/-- The devices of a user: the keys of a table. -/
abbrev Devices := { devices : List DeviceId // devices.Nodup }

structure State (V : Type) where
  /-- The keys of `userdevicetxnid_response`. -/
  txnids : List (List UInt8)
  /-- Every row ever put, also those that a device has taken since. -/
  rows : List (Row V)
  count : Nat
  devices : UserId → Devices
  active : UserId → Bool
  tasks : List (Task V)

variable {V : Type}

/-! ## The handling -/

def clientTxnKey (user : UserId) (device : Option DeviceId) (txnId : TransactionId) : List UInt8 :=
  user.asBytes ++ [0xFF] ++ (device.elim [] fun d => d.toUTF8.data.toList) ++ [0xFF] ++ txnId.toUTF8.data.toList

namespace State

def addClientTxnid (s : State V) (user : UserId) (device : Option DeviceId) (txnId : TransactionId) : State V :=
  { s with txnids := clientTxnKey user device txnId :: s.txnids }

def getClientTxn (s : State V) (user : UserId) (device : Option DeviceId) (txnId : TransactionId) : Bool :=
  decide (clientTxnKey user device txnId ∈ s.txnids)

def addToDeviceEvent (s : State V) (message : DirectDeviceContent) (user : UserId) (device : DeviceId) (event : V) :
    State V :=
  { s with
    count := s.count + 1
    rows := s.rows ++ [⟨user, device, s.count + 1, message.evType, message.sender, event, message.messageId⟩] }

def check (s : State V) (t : Task V) : Phase V :=
  if t.content.sender.serverName ≠ t.origin then .finished
  else if s.getClientTxn t.content.sender none t.content.messageId then .finished
  else .sending (t.content.messages.mapValues fun _ events => .waiting events)

def advance (deserializeAs : String → Option V) (s : State V) (message : DirectDeviceContent) (user : UserId) :
    Progress V → State V × Option (Progress V)
  | .waiting events => (s, if s.active user then some (.next events.entries) else none)
  | .next [] => (s, none)
  | .next (⟨target, raw⟩ :: rest) =>
    match deserializeAs raw with
    | none => (s, some (.next rest))
    | some event =>
      match target with
      | .deviceId device => (s.addToDeviceEvent message user device event, some (.next rest))
      | .allDevices => (s, some (.all event (s.devices user).1 rest))
  | .all _ [] rest => (s, some (.next rest))
  | .all event (device :: devices) rest =>
    (s.addToDeviceEvent message user device event, some (.all event devices rest))

def setPhase (s : State V) (i : Nat) (t : Task V) (phase : Phase V) : State V :=
  { s with tasks := s.tasks.set i { t with phase := phase } }

end State

inductive Action where
  /-- An EDU arrives, in whichever transaction. -/
  | receive (origin : ServerName) (content : DirectDeviceContent)
  | check (i : Nat)
  | advance (i : Nat) (user : UserId)
  | save (i : Nat)
  /-- Devices come and go, users are activated and deactivated. -/
  | devices (user : UserId) (devices : Devices)
  | active (user : UserId) (active : Bool)

variable (deserializeAs : String → Option V)

def step : Action → State V → Option (State V)
  | .receive origin content, s => some { s with tasks := s.tasks ++ [⟨origin, content, .received⟩] }
  | .check i, s => do
    let t ← s.tasks[i]?
    match t.phase with
    | .received => some (s.setPhase i t (s.check t))
    | _ => none
  | .advance i user, s => do
    let t ← s.tasks[i]?
    match t.phase with
    | .sending users =>
      let p ← users.lookup user
      let r := s.advance deserializeAs t.content user p
      some (r.1.setPhase i t (.sending (r.2.elim (users.erase user) fun p' => users.insert user p')))
    | _ => none
  | .save i, s => do
    let t ← s.tasks[i]?
    match t.phase with
    | .sending users =>
      if users.entries = [] then
        some ((s.addClientTxnid t.content.sender none t.content.messageId).setPhase i t .finished)
      else none
    | _ => none
  | .devices user devices, s => some { s with devices := Function.update s.devices user devices }
  | .active user active, s => some { s with active := Function.update s.active user active }

/-! ## When each event comes once -/

def Phase.isSending : Phase V → Bool
  | .sending _ => true
  | _ => false

def Task.key (t : Task V) : UserId × TransactionId := (t.content.sender, t.content.messageId)

def Row.key (row : Row V) : UserId × TransactionId := (row.sender, row.messageId)

def State.received (s : State V) (key : UserId × TransactionId) (user : UserId) (device : DeviceId) : Nat :=
  s.rows.countP fun row => row.key = key ∧ row.user = user ∧ row.device = device

/-- Another handling of the same message has made its check and not saved the id. -/
def State.overlaps (s : State V) (i : Nat) : Bool :=
  s.tasks[i]?.any fun t => (s.tasks.eraseIdx i).any fun t' => t'.phase.isSending && decide (t'.key = t.key)

def named (events : Events) (device : DeviceId) : Bool :=
  (events.lookup (.deviceId device)).any fun raw => (deserializeAs raw).isSome

def Progress.namedTwice (events : Events) (devices : List DeviceId) : Progress V → Bool
  | .next (⟨.allDevices, raw⟩ :: _) => (deserializeAs raw).isSome && devices.any (named deserializeAs events)
  | _ => false

def State.namedTwice (s : State V) (i : Nat) (user : UserId) : Bool :=
  s.tasks[i]?.any fun t =>
    match t.phase, t.content.messages.lookup user with
    | .sending users, some events =>
      (users.lookup user).any (Progress.namedTwice deserializeAs events (s.devices user).1)
    | _, _ => false

/-- A check is not made while the same message is being delivered, and a message does
not name a device both by its id and with all the others. -/
def Separate : Action → State V → Prop
  | .check i, s => s.overlaps i = false
  | .advance i user, s => s.namedTwice deserializeAs i user = false
  | _, _ => True

/-! ## Progress of one user -/

/-- A device has received the event. -/
def Got (rows : List (Row V)) (key : UserId × TransactionId) (user : UserId) (device : DeviceId) : Prop :=
  ∃ row ∈ rows, row.key = key ∧ row.user = user ∧ row.device = device

/-- What the events that are left need of the devices that `got` one. -/
structure Left (got : DeviceId → Prop) (events : Events)
    (rest : List (Σ _ : DeviceIdOrAllDevices, String)) : Prop where
  nodup : rest.NodupKeys
  mem : ∀ e ∈ rest, e ∈ events.entries
  fresh : ∀ device raw, ⟨.deviceId device, raw⟩ ∈ rest → (deserializeAs raw).isSome → ¬ got device
  own : ∀ raw, ⟨.allDevices, raw⟩ ∈ rest → ∀ device, got device → named deserializeAs events device

def OnTrack (got : DeviceId → Prop) (events : Events) : Progress V → Prop
  | .waiting events' => events' = events ∧ ∀ device, ¬ got device
  | .next rest => Left deserializeAs got events rest
  | .all _ devices rest =>
    Left deserializeAs got events rest ∧ (∀ raw, ⟨.allDevices, raw⟩ ∉ rest) ∧ devices.Nodup ∧
      ∀ device ∈ devices, ¬ got device ∧ named deserializeAs events device = false

/-- What a step for one user does to the tables: at most one row, for a device that
has none. -/
structure Sends (key : UserId × TransactionId) (user : UserId) (s s' : State V) : Prop where
  tasks : s'.tasks = s.tasks
  txnids : s'.txnids = s.txnids
  rows : s'.rows = s.rows ∨
    ∃ row : Row V, s'.rows = s.rows ++ [row] ∧ row.key = key ∧ row.user = user ∧ ¬ Got s.rows key user row.device

section
variable {deserializeAs} {got got' : DeviceId → Prop} {events : Events}
  {key : UserId × TransactionId} {user : UserId}
  {rest : List (Σ _ : DeviceIdOrAllDevices, String)} {e : Σ _ : DeviceIdOrAllDevices, String} {s s' : State V}

theorem Left.tail (h : Left deserializeAs got events (e :: rest)) : Left deserializeAs got events rest where
  nodup := (List.nodupKeys_cons.mp h.nodup).2
  mem e' he := h.mem e' (List.mem_cons_of_mem _ he)
  fresh device raw he := h.fresh device raw (List.mem_cons_of_mem _ he)
  own raw he := h.own raw (List.mem_cons_of_mem _ he)

theorem got_append (rows : List (Row V)) (row : Row V) (device : DeviceId) :
    Got (rows ++ [row]) key user device ↔
      Got rows key user device ∨ row.key = key ∧ row.user = user ∧ row.device = device := by
  simp [Got, or_and_right, exists_or]

theorem Left.head_notMem {target : DeviceIdOrAllDevices} {raw : String}
    (h : Left deserializeAs got events (⟨target, raw⟩ :: rest)) (raw' : String) : ⟨target, raw'⟩ ∉ rest := by
  intro he
  have hnot := (List.nodupKeys_cons.mp h.nodup).1
  exact hnot (List.mem_map.mpr ⟨_, he, rfl⟩)

theorem Left.deliver {device : DeviceId} (h : Left deserializeAs got events rest)
    (hgot : ∀ d, got' d → got d ∨ d = device)
    (hrest : ∀ raw, ⟨.deviceId device, raw⟩ ∈ rest → deserializeAs raw = none)
    (hnamed : ∀ raw, ⟨.allDevices, raw⟩ ∈ rest → named deserializeAs events device) :
    Left deserializeAs got' events rest where
  nodup := h.nodup
  mem := h.mem
  fresh d raw he hraw hd := by
    rcases hgot d hd with hd | rfl
    · exact h.fresh d raw he hraw hd
    · rw [hrest raw he] at hraw
      cases hraw
  own raw he d hd := by
    rcases hgot d hd with hd | rfl
    · exact h.own raw he d hd
    · exact hnamed raw he

theorem Left.all (events : Events) (h : ∀ device, ¬ got device) : Left deserializeAs got events events.entries where
  nodup := events.nodupKeys
  mem _ he := he
  fresh device _ _ _ := h device
  own _ _ device hd := absurd hd (h device)

theorem Sends.none (hs : s'.tasks = s.tasks) (ht : s'.txnids = s.txnids) (hr : s'.rows = s.rows) :
    Sends key user s s' :=
  ⟨hs, ht, .inl hr⟩

theorem sends_addToDeviceEvent (message : DirectDeviceContent) (device : DeviceId) (event : V)
    (h : ¬ Got s.rows (message.sender, message.messageId) user device) :
    Sends (message.sender, message.messageId) user s (s.addToDeviceEvent message user device event) :=
  ⟨rfl, rfl, .inr ⟨_, rfl, rfl, rfl, h⟩⟩

theorem got_addToDeviceEvent (message : DirectDeviceContent) (device : DeviceId) (event : V) (d : DeviceId)
    (h : Got (s.addToDeviceEvent message user device event).rows key user d) : Got s.rows key user
      d ∨ d = device := by
  rcases (got_append _ _ d).mp h with h | h
  · exact .inl h
  · exact .inr h.2.2.symm

theorem advance_onTrack {message : DirectDeviceContent} {p : Progress V}
    (hkey : (message.sender, message.messageId) = key) (h : OnTrack deserializeAs (Got s.rows key user) events p)
    (hsep : p.namedTwice deserializeAs events (s.devices user).1 = false) :
    Sends key user s (s.advance deserializeAs message user p).1 ∧
      ∀ p', (s.advance deserializeAs message user p).2 = some p' →
        OnTrack deserializeAs (Got (s.advance deserializeAs message user p).1.rows key user) events p' := by
  subst hkey
  match p with
  | .waiting events' =>
    obtain ⟨rfl, hnone⟩ := h
    refine ⟨.none rfl rfl rfl, fun p' hp => ?_⟩
    simp only [State.advance] at hp
    split at hp
    · cases hp
      exact Left.all events' hnone
    · cases hp
  | .next [] => exact ⟨.none rfl rfl rfl, fun p' hp => by cases hp⟩
  | .next (⟨target, raw⟩ :: rest) =>
    have hleft : Left deserializeAs _ events (⟨target, raw⟩ :: rest) := h
    cases hraw : deserializeAs raw with
    | none =>
      simp only [State.advance, hraw]
      refine ⟨.none rfl rfl rfl, fun p' hp => ?_⟩
      cases hp
      exact hleft.tail
    | some event =>
      cases target with
      | deviceId device =>
        have hsome : (deserializeAs raw).isSome := by
          rw [hraw]
          rfl
        simp only [State.advance, hraw]
        refine ⟨sends_addToDeviceEvent message device event (hleft.fresh device raw (by simp) hsome),
          fun p' hp => ?_⟩
        cases hp
        refine hleft.tail.deliver (got_addToDeviceEvent message device event) (fun raw' he => ?_) fun _ _ => ?_
        · exact absurd he (hleft.head_notMem raw')
        · have hl := AList.mem_entries_iff.mp (hleft.mem _ List.mem_cons_self)
          simp [named, hl, hraw]
      | allDevices =>
        simp only [State.advance, hraw]
        refine ⟨.none rfl rfl rfl, fun p' hp => ?_⟩
        cases hp
        -- none of the devices has an event of its own, and so none of them got one before
        refine ⟨hleft.tail, hleft.head_notMem, (s.devices user).2, fun device hd => ?_⟩
        have hown : named deserializeAs events device = false := by
          simp only [Progress.namedTwice, hraw, Option.isSome_some, Bool.true_and, List.any_eq_false] at hsep
          simpa using hsep device hd
        refine ⟨fun hg => ?_, hown⟩
        rw [hleft.own raw (by simp) device hg] at hown
        cases hown
  | .all event [] rest =>
    refine ⟨.none rfl rfl rfl, fun p' hp => ?_⟩
    cases hp
    exact h.1
  | .all event (device :: devices) rest =>
    obtain ⟨hleft, hall, hnodup, hfresh⟩ := h
    obtain ⟨hg, hown⟩ := hfresh device (by simp)
    refine ⟨sends_addToDeviceEvent message device event hg, fun p' hp => ?_⟩
    cases hp
    refine ⟨?_, hall, (List.nodup_cons.mp hnodup).2, fun d hd => ⟨fun hg' => ?_, (hfresh d (by simp [hd])).2⟩⟩
    · refine hleft.deliver (got_addToDeviceEvent message device event) (fun raw he => ?_) fun raw he => ?_
      · have hl := AList.mem_entries_iff.mp (hleft.mem _ he)
        simpa [named, hl] using hown
      · exact absurd he (hall raw)
    · rcases got_addToDeviceEvent message device event d hg' with hg' | rfl
      · exact (hfresh d (by simp [hd])).1 hg'
      · exact (List.nodup_cons.mp hnodup).1 hd

end

/-! ## Whole runs -/

/-- Each event came at most once; one that came is saved or still being delivered, by
one handling only, whose users are all on their tracks. -/
structure Delivered (s : State V) : Prop where
  once : ∀ key user device, s.received key user device ≤ 1
  known : ∀ row ∈ s.rows, clientTxnKey row.sender none row.messageId ∈ s.txnids ∨
    ∃ t ∈ s.tasks, t.phase.isSending ∧ t.key = row.key
  alone : ∀ (i j : Nat) t t', s.tasks[i]? = some t → s.tasks[j]? = some t' → t.phase.isSending →
    t'.phase.isSending →
    t.key = t'.key → i = j
  onTrack : ∀ t ∈ s.tasks, ∀ users, t.phase = .sending users → ∀ user p, users.lookup user = some p →
    ∃ events, t.content.messages.lookup user = some events ∧
      OnTrack deserializeAs (Got s.rows t.key user) events p

section
variable {deserializeAs} {s s' : State V} {i : Nat} {t : Task V}

theorem overlaps_eq_false (hi : s.tasks[i]? = some t) (h : s.overlaps i = false) {j : Nat}
    {t' : Task V} (hj : j ≠ i)
    (ht' : s.tasks[j]? = some t') (hs : t'.phase.isSending) : t'.key ≠ t.key := by
  intro hkey
  have hmem : t' ∈ s.tasks.eraseIdx i := List.mem_eraseIdx_iff_getElem?.mpr ⟨j, hj, ht'⟩
  simp only [State.overlaps, hi, Option.any_some, List.any_eq_false] at h
  simpa [hs, hkey] using h t' hmem

theorem Sends.received {key key' : UserId × TransactionId} {user user' : UserId} {device : DeviceId}
    (h : Sends key user s s') (honce : s.received key' user' device ≤ 1) : s'.received key' user' device ≤ 1 := by
  unfold State.received at honce ⊢
  rcases h.rows with hr | ⟨row, hr, hkey, huser, hnot⟩
  · rwa [hr]
  · rw [hr, List.countP_append]
    by_cases hrow : row.key = key' ∧ row.user = user' ∧ row.device = device
    · have hzero : s.rows.countP (fun row => row.key = key' ∧ row.user = user' ∧ row.device = device) = 0 := by
        rw [List.countP_eq_zero]
        intro r hr' hrk
        refine hnot ⟨r, hr', ?_⟩
        simp only [decide_eq_true_eq] at hrk
        rw [← hkey, ← huser, hrow.1, hrow.2.1, hrow.2.2]
        exact hrk
      rw [hzero]
      simp [hrow]
    · simpa [hrow] using honce

theorem Delivered.setPhase (h : Delivered deserializeAs s) (hi : s.tasks[i]? = some t) {phase : Phase V}
    (hphase : phase.isSending = false)
    (hknown : t.phase.isSending → clientTxnKey t.content.sender none t.content.messageId ∈ s.txnids) :
    Delivered deserializeAs (s.setPhase i t phase) where
  once := h.once
  known row hrow := by
    rcases h.known row hrow with hk | ⟨t', ht', hs', hkey⟩
    · exact .inl hk
    · rcases eq_or_mem_set hi { t with phase := phase } ht' with rfl | hstays
      · have hrk : (t'.content.sender, t'.content.messageId) = (row.sender, row.messageId) := hkey
        rw [Prod.mk.injEq] at hrk
        rw [← hrk.1, ← hrk.2]
        exact .inl (hknown hs')
      · exact .inr ⟨t', hstays, hs', hkey⟩
  alone j k t₁ t₂ h₁ h₂ hs₁ hs₂ hkey := by
    have hne : ∀ (j : Nat) (t' : Task V), (s.setPhase i t phase).tasks[j]? = some t' → t'.phase.isSending →
        s.tasks[j]? = some t' := by
      intro j t' hj hs
      rw [State.setPhase, getElem?_set_of_some hi] at hj
      by_cases hji : j = i
      · rw [if_pos hji, Option.some.injEq] at hj
        subst hj
        rw [hphase] at hs
        cases hs
      · rwa [if_neg hji] at hj
    exact h.alone j k t₁ t₂ (hne j t₁ h₁ hs₁) (hne k t₂ h₂ hs₂) hs₁ hs₂ hkey
  onTrack t' ht' users hu := by
    rcases mem_set_of_some hi ht' with rfl | ⟨j, _, hj⟩
    · simp only at hu
      rw [hu] at hphase
      cases hphase
    · exact h.onTrack t' (List.mem_of_getElem? hj) users hu

/-- A handling goes on delivering: its own users are on their tracks, and it has not sent
to a device that had the event. -/
theorem Delivered.advance (h : Delivered deserializeAs s) (hi : s.tasks[i]? = some t)
    (halone : ∀ j t', j ≠ i → s.tasks[j]? = some t' → t'.phase.isSending → t'.key ≠ t.key) {user : UserId}
    (hsend : Sends t.key user s s') {users : AList fun _ : UserId => Progress V}
    (htrack : ∀ user p, users.lookup user = some p → ∃ events, t.content.messages.lookup user = some events ∧
      OnTrack deserializeAs (Got s'.rows t.key user) events p) :
    Delivered deserializeAs (s'.setPhase i t (.sending users)) := by
  have hi' : s'.tasks[i]? = some t := by rw [hsend.tasks, hi]
  have htasks : ∀ j, (s'.setPhase i t (.sending users)).tasks[j]? =
      if j = i then some { t with phase := .sending users } else s.tasks[j]? := by
    intro j
    rw [State.setPhase, getElem?_set_of_some hi', hsend.tasks]
  have hrows : ∀ key user' device, key ≠ t.key → (Got s'.rows key user' device ↔ Got s.rows key user' device) := by
    intro key user' device hne
    rcases hsend.rows with hr | ⟨row, hr, hkey, _, _⟩
    · rw [hr]
    · rw [hr, got_append, or_iff_left]
      exact fun hrow => hne (hrow.1.symm.trans hkey)
  refine ⟨fun key user' device => ?_, fun row hrow => ?_, fun j k t₁ t₂ h₁ h₂ hs₁ hs₂ hkey => ?_,
    fun t' ht' users' hu user' p hp => ?_⟩
  · exact hsend.received (h.once key user' device)
  · show clientTxnKey row.sender none row.messageId ∈ s'.txnids ∨ _
    rw [hsend.txnids]
    have hself : { t with phase := .sending users } ∈ (s'.setPhase i t (.sending users)).tasks :=
      mem_set_self hi' _
    have hold : row ∈ s.rows → clientTxnKey row.sender none row.messageId ∈ s.txnids ∨
        ∃ t' ∈ (s'.setPhase i t (.sending users)).tasks, t'.phase.isSending ∧ t'.key = row.key := by
      intro hrow
      rcases h.known row hrow with hk | ⟨t', ht', hs', hkey⟩
      · exact .inl hk
      · rcases eq_or_mem_set hi' { t with phase := .sending users } (hsend.tasks.symm ▸ ht') with rfl | hstays
        · exact .inr ⟨_, hself, rfl, hkey⟩
        · exact .inr ⟨t', hstays, hs', hkey⟩
    rcases hsend.rows with hr | ⟨new, hr, hkey, _, _⟩
    · exact hold (hr ▸ hrow)
    · have hrow' : row ∈ s.rows ++ [new] := hr ▸ hrow
      rcases List.mem_append.mp hrow' with hrow' | hrow'
      · exact hold hrow'
      · rw [List.mem_singleton] at hrow'
        exact .inr ⟨_, hself, rfl, by rw [hrow', hkey]; rfl⟩
  -- no other handling of the message is delivering
  · rw [htasks] at h₁ h₂
    by_cases hj : j = i
    · by_cases hk : k = i
      · rw [hj, hk]
      · rw [if_pos hj, Option.some.injEq] at h₁
        rw [if_neg hk] at h₂
        subst h₁
        exact absurd hkey.symm (halone k t₂ hk h₂ hs₂)
    · rw [if_neg hj] at h₁
      by_cases hk : k = i
      · rw [if_pos hk, Option.some.injEq] at h₂
        subst h₂
        exact absurd hkey (halone j t₁ hj h₁ hs₁)
      · rw [if_neg hk] at h₂
        exact h.alone j k t₁ t₂ h₁ h₂ hs₁ hs₂ hkey
  · rcases mem_set_of_some hi' ht' with rfl | ⟨j, hji, hj⟩
    · cases hu
      exact htrack user' p hp
    · rw [hsend.tasks] at hj
      have hne := halone j t' hji hj (by rw [hu]; rfl)
      obtain ⟨events, hev, hon⟩ := h.onTrack t' (List.mem_of_getElem? hj) users' hu user' p hp
      refine ⟨events, hev, ?_⟩
      have hgot : Got s'.rows t'.key user' = Got s.rows t'.key user' :=
        funext fun device => propext (hrows t'.key user' device hne)
      show OnTrack deserializeAs (Got s'.rows t'.key user') events p
      rw [hgot]
      exact hon

theorem Delivered.receive (h : Delivered deserializeAs s) (origin : ServerName) (content : DirectDeviceContent) :
    Delivered deserializeAs { s with tasks := s.tasks ++ [⟨origin, content, .received⟩] } := by
  have hold : ∀ (j : Nat) (t' : Task V), (s.tasks ++ [⟨origin, content, .received⟩])[j]? = some t' →
      t'.phase.isSending → s.tasks[j]? = some t' := by
    intro j t' hj hs
    rw [List.getElem?_append] at hj
    split at hj
    · exact hj
    · rw [List.getElem?_singleton] at hj
      split at hj
      · cases hj
        cases hs
      · cases hj
  refine ⟨h.once, fun row hrow => ?_, fun j k t₁ t₂ h₁ h₂ hs₁ hs₂ => ?_, fun t' ht' users hu => ?_⟩
  · rcases h.known row hrow with hk | ⟨t', ht', hs'⟩
    · exact .inl hk
    · exact .inr ⟨t', List.mem_append_left _ ht', hs'⟩
  · exact h.alone j k t₁ t₂ (hold j t₁ h₁ hs₁) (hold k t₂ h₂ hs₂) hs₁ hs₂
  · obtain ⟨j, hj⟩ := List.mem_iff_getElem?.mp ht'
    exact h.onTrack t' (List.mem_of_getElem? (hold j t' hj (by rw [hu]; rfl))) users hu

/-- A message that is not saved, and of which no copy is being delivered, has not come
to any device. -/
theorem Delivered.unknown (h : Delivered deserializeAs s) (hi : s.tasks[i]? = some t)
    (hphase : t.phase.isSending = false) (hsep : s.overlaps i = false)
    (hnew : s.getClientTxn t.content.sender none t.content.messageId = false) (user : UserId) (device : DeviceId) :
    ¬ Got s.rows t.key user device := by
  rintro ⟨row, hrow, hkey, _, _⟩
  have hrk : (row.sender, row.messageId) = (t.content.sender, t.content.messageId) := hkey
  rw [Prod.mk.injEq] at hrk
  -- the id of a row is saved, or a handling of it goes on; neither is so here
  rcases h.known row hrow with hk | ⟨t', ht', hs', hkey'⟩
  · rw [hrk.1, hrk.2] at hk
    simp [State.getClientTxn, hk] at hnew
  · obtain ⟨j, hj⟩ := List.mem_iff_getElem?.mp ht'
    have hji : j ≠ i := by
      rintro rfl
      rw [hi, Option.some.injEq] at hj
      rw [← hj, hphase] at hs'
      cases hs'
    exact overlaps_eq_false hi hsep hji hj hs' (hkey'.trans hkey)

theorem Delivered.check (h : Delivered deserializeAs s) (hi : s.tasks[i]? = some t) (hphase : t.phase = .received)
    (hsep : s.overlaps i = false) : Delivered deserializeAs (s.setPhase i t (s.check t)) := by
  have hidle : t.phase.isSending = false := by
    rw [hphase]
    rfl
  have hstop : Delivered deserializeAs (s.setPhase i t .finished) :=
    h.setPhase hi rfl fun hs => by
      rw [hidle] at hs
      cases hs
  unfold State.check
  split
  · exact hstop
  · split
    · exact hstop
    · rename_i hnew
      have hunknown := h.unknown hi hidle hsep (by simpa using hnew)
      have hsend : Sends t.key t.content.sender s s := .none rfl rfl rfl
      refine h.advance hi (fun j t' hj ht' hs => overlaps_eq_false hi hsep hj ht' hs) hsend fun user p hp => ?_
      rw [AList.lookup_mapValues] at hp
      obtain ⟨events, hev, rfl⟩ := Option.map_eq_some_iff.mp hp
      exact ⟨events, hev, rfl, hunknown user⟩

theorem namedTwice_eq_false {user : UserId} {users : AList fun _ : UserId => Progress V} {events : Events}
    {p : Progress V} (hsep : s.namedTwice deserializeAs i user = false) (hi : s.tasks[i]? = some t)
    (hphase : t.phase = .sending users) (hev : t.content.messages.lookup user = some events)
    (hp : users.lookup user = some p) : p.namedTwice deserializeAs events (s.devices user).1 = false := by
  simpa [State.namedTwice, hi, hphase, hev, hp] using hsep

theorem Delivered.advanceUser (h : Delivered deserializeAs s) (hi : s.tasks[i]? = some t) {user : UserId}
    {users : AList fun _ : UserId => Progress V} {p : Progress V} (hphase : t.phase = .sending users)
    (hp : users.lookup user = some p) (hsep : s.namedTwice deserializeAs i user = false) :
    Delivered deserializeAs ((s.advance deserializeAs t.content user p).1.setPhase i t
      (.sending ((s.advance deserializeAs t.content user p).2.elim (users.erase user) fun p' =>
        users.insert user p'))) := by
  have hmem := List.mem_of_getElem? hi
  have hsending : t.phase.isSending := by
    rw [hphase]
    rfl
  obtain ⟨events, hev, hon⟩ := h.onTrack t hmem users hphase user p hp
  have hkey : (t.content.sender, t.content.messageId) = t.key := rfl
  obtain ⟨hsend, hnext⟩ := advance_onTrack hkey hon (namedTwice_eq_false hsep hi hphase hev hp)
  refine h.advance hi (fun j t' hj ht' hs hkey => hj (h.alone j i t' t ht' hi hs hsending hkey)) hsend
    fun user' p' hp' => ?_
  by_cases huser : user' = user
  · subst huser
    refine ⟨events, hev, ?_⟩
    cases hr : (s.advance deserializeAs t.content user' p).2 with
    | none =>
      rw [hr] at hp'
      simp at hp'
    | some p₁ =>
      rw [hr] at hp'
      simp only [Option.elim_some, AList.lookup_insert, Option.some.injEq] at hp'
      subst hp'
      exact hnext _ hr
  · have hold : users.lookup user' = some p' := by
      cases hr : (s.advance deserializeAs t.content user p).2 with
      | none =>
        rw [hr] at hp'
        simpa [AList.lookup_erase_ne huser] using hp'
      | some p₁ =>
        rw [hr] at hp'
        simpa [AList.lookup_insert_ne huser] using hp'
    obtain ⟨events', hev', hon'⟩ := h.onTrack t hmem users hphase user' p' hold
    refine ⟨events', hev', ?_⟩
    have hgot : Got (s.advance deserializeAs t.content user p).1.rows t.key user' = Got s.rows t.key user' := by
      funext device
      rcases hsend.rows with hr | ⟨row, hr, _, hru, _⟩
      · rw [hr]
      · rw [hr, propext (got_append _ _ _), or_iff_left]
        exact fun hrow => huser (hrow.2.1.symm.trans hru)
    rw [hgot]
    exact hon'

theorem Delivered.save (h : Delivered deserializeAs s) (hi : s.tasks[i]? = some t) :
    Delivered deserializeAs ((s.addClientTxnid t.content.sender none t.content.messageId).setPhase
      i t .finished) := by
  have hsaved : Delivered deserializeAs (s.addClientTxnid t.content.sender none t.content.messageId) := by
    refine ⟨h.once, fun row hrow => ?_, h.alone, h.onTrack⟩
    exact (h.known row hrow).imp_left (List.mem_cons_of_mem _)
  exact hsaved.setPhase hi rfl fun _ => List.mem_cons_self

theorem step_delivered {a : Action} (h : Delivered deserializeAs s) (hsep : Separate deserializeAs a s)
    (hs : step deserializeAs a s = some s') : Delivered deserializeAs s' := by
  cases a with
  | receive origin content =>
    cases hs
    exact h.receive origin content
  | check i =>
    obtain ⟨t, hi, hs⟩ := Option.bind_eq_some_iff.mp hs
    cases hphase : t.phase with
    | received =>
      simp only [hphase, Option.some.injEq] at hs
      exact hs ▸ h.check hi hphase hsep
    | sending users => simp [hphase] at hs
    | finished => simp [hphase] at hs
  | advance i user =>
    obtain ⟨t, hi, hs⟩ := Option.bind_eq_some_iff.mp hs
    cases hphase : t.phase with
    | received => simp [hphase] at hs
    | sending users =>
      simp only [hphase] at hs
      obtain ⟨p, hp, hs⟩ := Option.bind_eq_some_iff.mp hs
      rw [Option.some.injEq] at hs
      exact hs ▸ h.advanceUser hi hphase hp hsep
    | finished => simp [hphase] at hs
  | save i =>
    obtain ⟨t, hi, hs⟩ := Option.bind_eq_some_iff.mp hs
    cases hphase : t.phase with
    | received => simp [hphase] at hs
    | sending users =>
      simp only [hphase, Option.ite_none_right_eq_some, Option.some.injEq] at hs
      exact hs.2 ▸ h.save hi
    | finished => simp [hphase] at hs
  | devices user devices =>
    cases hs
    exact ⟨h.once, h.known, h.alone, h.onTrack⟩
  | active user active =>
    cases hs
    exact ⟨h.once, h.known, h.alone, h.onTrack⟩

end

def State.start (count : Nat) (devices : UserId → Devices) (active : UserId → Bool) : State V where
  txnids := []
  rows := []
  count := count
  devices := devices
  active := active
  tasks := []

theorem start_delivered (count : Nat) (devices : UserId → Devices) (active : UserId → Bool) :
    Delivered deserializeAs (State.start count devices active : State V) where
  once _ _ _ := Nat.zero_le _
  known _ h := by cases h
  alone _ _ _ _ h := by cases h
  onTrack _ h := by cases h

/-- In every run that meets the condition, a device's queue receives the event of a sender
and message id at most once. -/
theorem received_once {count : Nat} {devices : UserId → Devices} {active : UserId → Bool} {s : State V}
    (h : Reaches (step deserializeAs) (Separate deserializeAs) (State.start count devices active) s)
    (sender : UserId) (messageId : TransactionId) (user : UserId) (device : DeviceId) :
    s.received (sender, messageId) user device ≤ 1 :=
  (h.invariant (start_delivered deserializeAs count devices active) fun _ _ _ h hsep hs =>
    step_delivered h hsep hs).once (sender, messageId) user device

/-! ## Two copies of a message -/

instance (a : Action) (s : State V) : Decidable (Separate deserializeAs a s) :=
  match a with
  | .check i => inferInstanceAs (Decidable (s.overlaps i = false))
  | .advance i user => inferInstanceAs (Decidable (s.namedTwice deserializeAs i user = false))
  | .receive .. | .save _ | .devices .. | .active .. => inferInstanceAs (Decidable True)

def alice : UserId := ⟨"alice", "b"⟩

def bob : UserId := ⟨"bob", "a"⟩

def roomKey : DirectDeviceContent where
  sender := alice
  evType := "m.room_key"
  messageId := "m1"
  messages := AList.singleton bob (AList.singleton (.deviceId "PHONE") "{}")

def bobOnline : State String := .start 0 (fun _ => ⟨["PHONE"], by decide⟩) fun user => decide (user = bob)

def roomKeyTwice : DirectDeviceContent :=
  { roomKey with
    messages := AList.singleton bob ((AList.singleton (.deviceId "PHONE") "{}").insert .allDevices "{}") }

/-- The second copy arrives after the first is saved. -/
theorem copy_received_once :
    ∃ s, Reaches (step some) (Separate some) bobOnline s ∧ s.tasks.length = 2 ∧
      s.received (alice, "m1") bob "PHONE" = 1 := by
  have hrun : ((runWhile (step some) (Separate some)
    [.receive "b" roomKey, .check 0, .advance 0 bob, .advance 0 bob,
      .advance 0 bob, .save 0, .receive "b" roomKey, .check 1] bobOnline).map fun s =>
        (s.tasks.length, decide (0 < s.received (alice, "m1") bob "PHONE"))) = some (2, true) := by decide
  obtain ⟨s, hs, hcount⟩ := Option.map_eq_some_iff.mp hrun
  rw [Prod.mk.injEq, decide_eq_true_eq] at hcount
  have hreach := Reaches.of_runWhile _ .init hs
  have honce := received_once some hreach alice "m1" bob "PHONE"
  exact ⟨s, hreach, hcount.1, by omega⟩

/-- Both copies make their check before either is saved. -/
theorem overlapping_copies_received_twice :
    ¬ ∀ (s : State String), Reaches (step some) (fun _ _ => True) bobOnline s →
      ∀ sender messageId user device, s.received (sender, messageId) user device ≤ 1 := by
  intro h
  have hrun : ((runWhile (step some) (fun _ _ => True)
    [.receive "b" roomKey, .receive "b" roomKey, .check 0, .check 1,
      .advance 0 bob, .advance 0 bob, .advance 1 bob, .advance 1 bob] bobOnline).map fun s =>
        s.received (alice, "m1") bob "PHONE") = some 2 := by decide
  obtain ⟨s, hs, hcount⟩ := Option.map_eq_some_iff.mp hrun
  have honce := h s (Reaches.of_runWhile _ .init hs) alice "m1" bob "PHONE"
  omega

-- One message that names the device twice.
example : ((runWhile (step some) (fun _ _ => True) [.receive "b" roomKeyTwice, .check 0,
    .advance 0 bob, .advance 0 bob,
    .advance 0 bob, .advance 0 bob, .advance 0 bob] bobOnline).map fun s =>
      s.received (alice, "m1") bob "PHONE") = some 2 := by decide

end Congruent.ToDevice
