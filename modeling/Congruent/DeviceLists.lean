import Congruent.Json
import Congruent.Machine
import Congruent.Store

/-!
# Device lists of other servers' users

The handling of device-list EDUs (`handle_edu_device_list_update`), many at a time: a
step is what one handling does between two awaits.
-/

namespace Congruent.DeviceLists

abbrev DeviceId := String
abbrev ServerName := String

structure UserId where
  localpart : String
  serverName : ServerName
  deriving DecidableEq

structure DeviceListUpdateContent where
  userId : UserId
  deviceId : DeviceId
  streamId : Nat
  prevId : List Nat
  deleted : Option Bool
  keys : Option String
  deviceDisplayName : Option String

structure Device where
  deviceId : DeviceId
  keys : String
  deviceDisplayName : Option String

/-- What the server a user is on answers about its devices. -/
structure Response where
  streamId : Nat
  devices : List Device

/-- The codec of raw keys; `D` are the values of parsed device keys. -/
structure Codec (D : Type) where
  object : String → Option Object
  fromValue : Object → String
  deviceKeys : String → Option D

structure StoredKey where
  keys : String
  streamId : Nat

/-- What a handling has still to write. -/
structure Writing where
  streamId : Nat
  /-- Keys to store, or to remove. -/
  todo : List (DeviceId × Option String)
  /-- The stored keys of the first device have been looked up. -/
  looked : Bool
  changed : Bool
  /-- A key has been stored. -/
  wrote : Bool

inductive Phase where
  | received
  /-- Asks whether the user can be placed in a room. -/
  | placing (lastSeen : Nat)
  | fetching (lastSeen : Nat)
  | writing (w : Writing)
  | marking
  | finished

/-- The handling of one EDU. -/
structure Task where
  origin : ServerName
  content : DeviceListUpdateContent
  phase : Phase

structure State where
  /-- `userid_lastremotedeviceliststreamid`. -/
  streamIds : UserId → Option Store.Bytes
  /-- `keyid_key`. -/
  keys : UserId → DeviceId → Option StoredKey
  /-- Users whose updates wait until their rooms are known. -/
  deferred : List UserId
  /-- Users marked as changed. -/
  marked : List UserId
  tasks : List Task

/-! ## The stored stream id

It is written as JSON, but read as a database integer. -/

def json (n : Nat) : Store.Bytes := (Nat.toDigits 10 n).map Char.toUInt8

/-- `deserialize_u64`: the first eight bytes, the highest first. -/
def deserialized (record : Store.Bytes) : Option Nat :=
  if 8 ≤ record.length then some (Store.ofBeBytes (record.take 8)) else none

/-- The number a record was written for. -/
def ofJson (record : Store.Bytes) : Nat := Nat.ofDigitChars 10 (record.map fun b => Char.ofNat b.toNat) 0

theorem ofNat_toUInt8 {c : Char} (h : c.isDigit) : Char.ofNat c.toUInt8.toNat = c := by
  have hle : c.toNat ≤ 57 := (Char.isDigit_iff_toNat.mp h).2
  have hbyte : c.toUInt8.toNat = c.toNat := by
    rw [Char.toUInt8, UInt32.toNat_toUInt8]
    exact Nat.mod_eq_of_lt (by simp only [Char.toNat] at hle; omega)
  rw [hbyte, Char.ofNat_toNat]

@[simp] theorem ofJson_json (n : Nat) : ofJson (json n) = n := by
  have hchars : (json n).map (fun b => Char.ofNat b.toNat) = Nat.toDigits 10 n := by
    rw [json, List.map_map]
    exact (List.map_congr_left fun c hc => ofNat_toUInt8 (Nat.isDigit_of_mem_toDigits (by decide)
      (by decide) hc)).trans
      (List.map_id _)
  rw [ofJson, hchars, Nat.ofDigitChars_ten_toDigits]

/-! ## The handling -/

section
variable {D : Type} [DecidableEq D] (codec : Codec D)

def injectDeviceDisplayName (keys : String) (displayName : Option String) : String :=
  match codec.object keys with
  | none => keys
  | some object =>
    match displayName with
    | some name =>
      match (object.get "unsigned").getD (.obj []) with
      | .obj unsigned =>
        if (Object.get unsigned "device_display_name").bind Value.asStr = some name then keys
        else codec.fromValue
          (object.insert "unsigned" (.obj (Object.insert unsigned "device_display_name" (.str name))))
      | _ => keys
    | none =>
      match object.get "unsigned" with
      | some (.obj unsigned) =>
        if (Object.get unsigned "device_display_name").isSome then
          codec.fromValue (object.insert "unsigned" (.obj (Object.remove unsigned "device_display_name")))
        else keys
      | _ => keys

def remoteDeviceKeysDiffer (existing incoming : String) : Bool :=
  match codec.deviceKeys existing, codec.deviceKeys incoming with
  | some existing, some incoming => existing ≠ incoming
  | _, _ => existing ≠ incoming

def changes (existing : Option StoredKey) : Option String → Bool
  | some incoming => existing.elim true fun key => remoteDeviceKeysDiffer codec key.keys incoming
  | none => existing.isSome

namespace State

def remoteDeviceListStreamId (s : State) (user : UserId) : Nat :=
  ((s.streamIds user).bind deserialized).getD 0

def setRemoteDeviceListStreamId (s : State) (user : UserId) (streamId : Nat) : State :=
  { s with streamIds := Function.update s.streamIds user (some (json streamId)) }

def position (s : State) (user : UserId) : Nat := (s.streamIds user).elim 0 ofJson

/-- `cache_remote_device_keys`, and without keys `remove_remote_device_keys`. -/
def putDeviceKeys (s : State) (user : UserId) (device : DeviceId) (streamId : Nat) (keys : Option String) : State :=
  { s with
    keys := Function.update s.keys user
      (Function.update (s.keys user) device (keys.map fun keys => ⟨keys, streamId⟩)) }

def check (s : State) (t : Task) : Phase :=
  let c := t.content
  let lastSeen := s.remoteDeviceListStreamId c.userId
  if c.userId.serverName ≠ t.origin then .finished
  else if c.streamId ≤ lastSeen then .finished
  else if c.prevId.any fun prev => decide (lastSeen < prev) && decide (prev ≠ c.streamId) then
    .writing ⟨c.streamId, [], false, true, false⟩
  else if c.deleted = some true then .writing ⟨c.streamId, [(c.deviceId, none)], false, false, false⟩
  else
    match c.keys with
    | none => .placing lastSeen
    | some keys =>
      .writing ⟨c.streamId, [(c.deviceId, some (injectDeviceDisplayName codec keys c.deviceDisplayName))],
        false, false, false⟩

def respond (lastSeen : Nat) : Option Response → Phase
  | none => .finished
  | some r =>
    if r.streamId ≤ lastSeen then .finished
    else
      .writing ⟨r.streamId, r.devices.map fun device =>
        (device.deviceId, some (injectDeviceDisplayName codec device.keys device.deviceDisplayName)),
        false, false, false⟩

/-- The next write of a handling, or the look before it. -/
def write (s : State) (user : UserId) (w : Writing) : State × Phase :=
  match w.todo, w.looked with
  | [], _ => (s.setRemoteDeviceListStreamId user w.streamId, if w.changed then .marking else .finished)
  | (device, keys) :: _, false =>
    (s, .writing { w with looked := true, changed := w.changed || changes codec (s.keys user device) keys })
  | (device, keys) :: rest, true =>
    (s.putDeviceKeys user device w.streamId keys,
      .writing { w with todo := rest, looked := false, wrote := w.wrote || keys.isSome })

def setPhase (s : State) (i : Nat) (t : Task) (phase : Phase) : State :=
  { s with tasks := s.tasks.set i { t with phase := phase } }

end State

inductive Action where
  /-- An EDU arrives, in whichever transaction. -/
  | receive (origin : ServerName) (content : DeviceListUpdateContent)
  | check (i : Nat)
  | place (i : Nat) (deferred : Bool)
  | respond (i : Nat) (response : Option Response)
  | write (i : Nat)
  | mark (i : Nat)

def step : Action → State → Option State
  | .receive origin content, s => some { s with tasks := s.tasks ++ [⟨origin, content, .received⟩] }
  | .check i, s => do
    let t ← s.tasks[i]?
    match t.phase with
    | .received => some (s.setPhase i t (s.check codec t))
    | _ => none
  | .place i deferred, s => do
    let t ← s.tasks[i]?
    match t.phase with
    | .placing lastSeen =>
      if deferred then some ({ s with deferred := t.content.userId :: s.deferred }.setPhase i t .finished)
      else some (s.setPhase i t (.fetching lastSeen))
    | _ => none
  | .respond i response, s => do
    let t ← s.tasks[i]?
    match t.phase with
    | .fetching lastSeen => some (s.setPhase i t (State.respond codec lastSeen response))
    | _ => none
  | .write i, s => do
    let t ← s.tasks[i]?
    match t.phase with
    | .writing w =>
      let r := s.write codec t.content.userId w
      some (r.1.setPhase i t r.2)
    | _ => none
  | .mark i, s => do
    let t ← s.tasks[i]?
    match t.phase with
    | .marking => some ({ s with marked := t.content.userId :: s.marked }.setPhase i t .finished)
    | _ => none

/-! ## Updates in order -/

def Task.writing (t : Task) (user : UserId) : Option Writing :=
  match t.phase with
  | .writing w => if t.content.userId = user then some w else none
  | _ => none

namespace State

def otherWritings (s : State) (i : Nat) (user : UserId) : List Writing :=
  (s.tasks.eraseIdx i).filterMap fun t => t.writing user

/-- A task may begin to write a stream id: no larger one is stored, and no other task that
has stored a key has a larger one. -/
def mayBegin (s : State) (i : Nat) (user : UserId) (streamId : Nat) : Bool :=
  decide (s.position user ≤ streamId) &&
    (s.otherWritings i user).all fun w => !w.wrote || decide (w.streamId ≤ streamId)

def mayWrite (s : State) (i : Nat) (user : UserId) (streamId : Nat) : Bool :=
  (s.otherWritings i user).all fun w => decide (streamId ≤ w.streamId)

end State

def InOrder (a : Action) (s : State) : Bool :=
  match a with
  | .check i => s.tasks[i]?.all fun t =>
    match s.check codec t with
    | .writing _ => s.mayBegin i t.content.userId t.content.streamId
    | _ => true
  | .respond i (some r) => s.tasks[i]?.all fun t =>
    match t.phase with
    | .fetching lastSeen => decide (r.streamId ≤ lastSeen) || s.mayBegin i t.content.userId r.streamId
    | _ => true
  | .write i => s.tasks[i]?.all fun t =>
    match t.phase with
    | .writing w => (!w.todo.isEmpty && !w.looked) || s.mayWrite i t.content.userId w.streamId
    | _ => true
  | _ => true

/-! ## One step -/

/-- A step from `s` to `s'` does not move a position back, and does not replace a key by
one of a smaller stream id. -/
structure Advances (s s' : State) : Prop where
  position : ∀ user, s.position user ≤ s'.position user
  keys : ∀ user device key key', s.keys user device = some key → s'.keys user device = some key' →
    key.streamId ≤ key'.streamId

/-- What is still to be written is not behind the position, nor behind any stored key; a
key ahead of the position is that of a task that has still to write the position. -/
structure Ordered (s : State) : Prop where
  ahead : ∀ t ∈ s.tasks, ∀ user w, t.writing user = some w → s.position user ≤ w.streamId
  keys : ∀ t ∈ s.tasks, ∀ user w, t.writing user = some w → ∀ device key, s.keys user device = some key →
    key.streamId ≤ w.streamId
  covered : ∀ user device key, s.keys user device = some key → key.streamId ≤ s.position user ∨
    ∃ t ∈ s.tasks, ∃ w, t.writing user = some w ∧ w.wrote ∧ key.streamId ≤ w.streamId

variable {codec} {s s' : State} {i : Nat} {t : Task} {user : UserId} {w : Writing}

theorem Advances.of_eq (hp : s'.streamIds = s.streamIds) (hk : s'.keys = s.keys) : Advances s s' where
  position user := by rw [State.position, State.position, hp]
  keys user device key key' h h' := by
    rw [hk, h, Option.some.injEq] at h'
    rw [h']

theorem Task.writing_eq_some : t.writing user = some w ↔ t.phase = .writing w ∧ t.content.userId = user := by
  unfold Task.writing
  cases t.phase with
  | writing w' => simp [and_comm]
  | _ => simp

theorem writing_setPhase {phase : Phase} :
    Task.writing { t with phase := phase } user = some w ↔ phase = .writing w ∧ t.content.userId = user :=
  Task.writing_eq_some

theorem mem_otherWritings {j : Nat} {t' : Task} (hj : s.tasks[j]? = some t') (hne : j ≠ i)
    (hw : t'.writing user = some w) : w ∈ s.otherWritings i user :=
  List.mem_filterMap.mpr ⟨t', List.mem_eraseIdx_iff_getElem?.mpr ⟨j, hne, hj⟩, hw⟩

theorem mayWrite_le (h : s.mayWrite i user w.streamId) {j : Nat} {t' : Task} {w' : Writing}
    (hj : s.tasks[j]? = some t')
    (hne : j ≠ i) (hw : t'.writing user = some w') : w.streamId ≤ w'.streamId := by
  have hall := List.all_eq_true.mp h w' (mem_otherWritings hj hne hw)
  simpa using hall

theorem mayBegin_position {n : Nat} (h : s.mayBegin i user n) : s.position user ≤ n :=
  of_decide_eq_true (Bool.and_eq_true_iff.mp h).1

theorem Ordered.begin (h : Ordered s) (hi : s.tasks[i]? = some t) (hphase : ∀ user, t.writing user = none)
    {n : Nat} (hmay : s.mayBegin i user n) {device : DeviceId} {key : StoredKey}
    (hkey : s.keys user device = some key) : key.streamId ≤ n := by
  rcases h.covered user device key hkey with hle | ⟨t', ht', w', hw', hwrote, hle⟩
  · exact hle.trans (mayBegin_position hmay)
  · obtain ⟨j, hj⟩ := List.mem_iff_getElem?.mp ht'
    have hji : j ≠ i := by
      rintro rfl
      rw [hi, Option.some.injEq] at hj
      rw [← hj, hphase] at hw'
      cases hw'
    have hall := List.all_eq_true.mp (Bool.and_eq_true_iff.mp hmay).2 w' (mem_otherWritings hj hji hw')
    simp only [hwrote, Bool.not_true, Bool.false_or, decide_eq_true_eq] at hall
    exact hle.trans hall

theorem Ordered.setPhase (h : Ordered s) (hi : s.tasks[i]? = some t) (phase : Phase)
    (hnew : ∀ w, phase = .writing w → s.position t.content.userId ≤ w.streamId ∧
      ∀ device key, s.keys t.content.userId device = some key → key.streamId ≤ w.streamId)
    (hold : ∀ w, t.phase = .writing w → w.wrote → ∃ w', phase = .writing w' ∧ w'.wrote ∧ w.streamId ≤ w'.streamId) :
    Ordered (s.setPhase i t phase) where
  ahead t' ht' user w hw := by
    rcases mem_set_of_some hi ht' with rfl | ⟨j, _, hj⟩
    · obtain ⟨hphase, rfl⟩ := writing_setPhase.mp hw
      exact (hnew w hphase).1
    · exact h.ahead t' (List.mem_of_getElem? hj) user w hw
  keys t' ht' user w hw := by
    rcases mem_set_of_some hi ht' with rfl | ⟨j, _, hj⟩
    · obtain ⟨hphase, rfl⟩ := writing_setPhase.mp hw
      exact (hnew w hphase).2
    · exact h.keys t' (List.mem_of_getElem? hj) user w hw
  covered user device key hkey := by
    rcases h.covered user device key hkey with hle | ⟨t', ht', w, hw, hwrote, hle⟩
    · exact .inl hle
    · rcases eq_or_mem_set hi { t with phase := phase } ht' with rfl | hmem
      · obtain ⟨hphase, rfl⟩ := Task.writing_eq_some.mp hw
        obtain ⟨w', hw', hwrote', hle'⟩ := hold w hphase hwrote
        exact .inr ⟨_, mem_set_self hi _, w', writing_setPhase.mpr ⟨hw', rfl⟩, hwrote', hle.trans hle'⟩
      · exact .inr ⟨t', hmem, w, hw, hwrote, hle⟩

theorem Ordered.pass (h : Ordered s) (hi : s.tasks[i]? = some t) {phase : Phase} (hphase : ∀ w, phase ≠ .writing w)
    (hold : ∀ w, t.phase ≠ .writing w) : Ordered (s.setPhase i t phase) :=
  h.setPhase hi phase (fun w hw => absurd hw (hphase w)) fun w hw => absurd hw (hold w)

theorem Ordered.start (h : Ordered s) (hi : s.tasks[i]? = some t) (hold : ∀ w, t.phase ≠ .writing w)
    (hmay : s.mayBegin i t.content.userId w.streamId) : Ordered (s.setPhase i t (.writing w)) := by
  have hnone : ∀ user, t.writing user = none := by
    intro user
    by_contra hne
    obtain ⟨w', hw'⟩ := Option.ne_none_iff_exists'.mp hne
    exact hold w' (Task.writing_eq_some.mp hw').1
  refine h.setPhase hi (.writing w) (fun w' hw' => ?_) fun w' hw' => absurd hw' (hold w')
  cases hw'
  exact ⟨mayBegin_position hmay, fun device key hkey => h.begin hi hnone hmay hkey⟩

omit [DecidableEq D] in
theorem check_writing (hc : s.check codec t = .writing w) : w.streamId = t.content.streamId := by
  unfold State.check at hc
  simp only at hc
  split at hc
  · cases hc
  · split at hc
    · cases hc
    · split at hc
      · cases hc
        rfl
      · split at hc
        · cases hc
          rfl
        · split at hc
          · cases hc
          · cases hc
            rfl

omit [DecidableEq D] in
theorem respond_writing {lastSeen : Nat} {response : Option Response}
    (hr : State.respond codec lastSeen response = .writing w) :
    ∃ r, response = some r ∧ w.streamId = r.streamId ∧ lastSeen < r.streamId := by
  cases response with
  | none => cases hr
  | some r =>
    simp only [State.respond] at hr
    split at hr
    · cases hr
    · cases hr
      exact ⟨r, rfl, rfl, by omega⟩

theorem position_set (s : State) (user user' : UserId) (n : Nat) :
    (s.setRemoteDeviceListStreamId user n).position user' =
      if user' = user then n else s.position user' := by
  unfold State.position State.setRemoteDeviceListStreamId
  by_cases h : user' = user
  · simp [h]
  · simp [h]

theorem keys_put (s : State) (user user' : UserId) (device device' : DeviceId) (n : Nat) (keys : Option String) :
    (s.putDeviceKeys user device n keys).keys user' device' =
      if user' = user ∧ device' = device then keys.map fun keys => ⟨keys, n⟩ else s.keys user' device' := by
  unfold State.putDeviceKeys
  by_cases hu : user' = user
  · subst hu
    by_cases hd : device' = device
    · simp [hd]
    · simp [hd]
  · simp [hu]

theorem Ordered.writePosition (h : Ordered s) (hi : s.tasks[i]? = some t) (hphase : t.phase = .writing w)
    (hmay : s.mayWrite i t.content.userId w.streamId) {phase : Phase} (hnew : ∀ w, phase ≠ .writing w) :
    Ordered ((s.setRemoteDeviceListStreamId t.content.userId w.streamId).setPhase i t phase) ∧
      Advances s ((s.setRemoteDeviceListStreamId t.content.userId w.streamId).setPhase i t phase) := by
  have hmem := List.mem_of_getElem? hi
  have hself : t.writing t.content.userId = some w := Task.writing_eq_some.mpr ⟨hphase, rfl⟩
  have hpos := h.ahead t hmem t.content.userId w hself
  have hmove : ∀ user, s.position user ≤
      (s.setRemoteDeviceListStreamId t.content.userId w.streamId).position user := by
    intro user
    rw [position_set]
    split
    · rename_i hu
      exact hu ▸ hpos
    · exact Nat.le_refl _
  refine ⟨⟨fun t' ht' user w' hw' => ?_, fun t' ht' user w' hw' => ?_, fun user device key hkey => ?_⟩,
    hmove, fun user device key key' hk hk' => ?_⟩
  · show (s.setRemoteDeviceListStreamId t.content.userId w.streamId).position user ≤ _
    rcases mem_set_of_some hi ht' with rfl | ⟨j, hji, hj⟩
    · exact absurd (writing_setPhase.mp hw').1 (hnew w')
    · rw [position_set]
      split
      · rename_i hu
        subst hu
        exact mayWrite_le hmay hj hji hw'
      · exact h.ahead t' (List.mem_of_getElem? hj) user w' hw'
  · rcases mem_set_of_some hi ht' with rfl | ⟨j, hji, hj⟩
    · exact absurd (writing_setPhase.mp hw').1 (hnew w')
    · exact h.keys t' (List.mem_of_getElem? hj) user w' hw'
  -- a key that was ahead because of this task is not ahead any more
  · rcases h.covered user device key hkey with hle | ⟨t', ht', w', hw', hwrote, hle⟩
    · exact .inl (hle.trans (hmove user))
    · rcases eq_or_mem_set hi { t with phase := phase } ht' with rfl | hstays
      · obtain ⟨hphase', rfl⟩ := Task.writing_eq_some.mp hw'
        rw [hphase] at hphase'
        cases hphase'
        left
        show key.streamId ≤ (s.setRemoteDeviceListStreamId _ w.streamId).position _
        rw [position_set, if_pos rfl]
        exact hle
      · exact .inr ⟨t', hstays, w', hw', hwrote, hle⟩
  · have heq : some key = some key' := hk.symm.trans hk'
    cases heq
    exact Nat.le_refl _

theorem Ordered.writeKey (h : Ordered s) (hi : s.tasks[i]? = some t) (hphase : t.phase = .writing w)
    (hmay : s.mayWrite i t.content.userId w.streamId) (device : DeviceId) (keys : Option String) {w' : Writing}
    (hw' : w'.streamId = w.streamId) (hwrote : w'.wrote = (w.wrote || keys.isSome)) :
    Ordered ((s.putDeviceKeys t.content.userId device w.streamId keys).setPhase i t (.writing w')) ∧
      Advances s ((s.putDeviceKeys t.content.userId device w.streamId keys).setPhase i t (.writing w')) := by
  have hmem := List.mem_of_getElem? hi
  have hself : t.writing t.content.userId = some w := Task.writing_eq_some.mpr ⟨hphase, rfl⟩
  -- a key of the new state is the one stored now, or an old one
  have hnew : ∀ user d key, (s.putDeviceKeys t.content.userId device w.streamId keys).keys user d = some key →
      (user = t.content.userId ∧ key.streamId = w.streamId ∧ keys.isSome) ∨ s.keys user d = some key := by
    intro user d key hkey
    rw [keys_put] at hkey
    split at hkey
    · rename_i hud
      obtain ⟨k, hk, rfl⟩ := Option.map_eq_some_iff.mp hkey
      exact .inl ⟨hud.1, rfl, by rw [hk]; rfl⟩
    · exact .inr hkey
  refine ⟨⟨fun t' ht' user w₁ hw₁ => ?_, fun t' ht' user w₁ hw₁ d key hkey => ?_, fun user d key hkey => ?_⟩,
    fun user => Nat.le_refl _, fun user d key key' hk hk' => ?_⟩
  · rcases mem_set_of_some hi ht' with rfl | ⟨j, hji, hj⟩
    · obtain ⟨hphase', rfl⟩ := writing_setPhase.mp hw₁
      cases hphase'
      rw [hw']
      exact h.ahead t hmem _ w hself
    · exact h.ahead t' (List.mem_of_getElem? hj) user w₁ hw₁
  · rcases mem_set_of_some hi ht' with rfl | ⟨j, hji, hj⟩
    · obtain ⟨hphase', rfl⟩ := writing_setPhase.mp hw₁
      cases hphase'
      rw [hw']
      rcases hnew _ d key hkey with ⟨_, hle, _⟩ | hold
      · exact hle.le
      · exact h.keys t hmem _ w hself d key hold
    · rcases hnew user d key hkey with ⟨rfl, hle, _⟩ | hold
      · exact hle ▸ mayWrite_le hmay hj hji hw₁
      · exact h.keys t' (List.mem_of_getElem? hj) user w₁ hw₁ d key hold
  · have hself' : w'.wrote → ∀ key : StoredKey, key.streamId ≤ w.streamId →
        ∃ t' ∈ ((s.putDeviceKeys t.content.userId device w.streamId keys).setPhase i t (.writing w')).tasks,
          ∃ w₁, t'.writing t.content.userId = some w₁ ∧ w₁.wrote ∧ key.streamId ≤ w₁.streamId := fun hw key hle =>
      ⟨_, mem_set_self hi _, w', writing_setPhase.mpr ⟨rfl, rfl⟩, hw, hw' ▸ hle⟩
    rcases hnew user d key hkey with ⟨rfl, hle, hsome⟩ | hold
    · exact .inr (hself' (by rw [hwrote, hsome, Bool.or_true]) key hle.le)
    · rcases h.covered user d key hold with hle | ⟨t', ht', w₁, hw₁, hwr, hle⟩
      · exact .inl hle
      · rcases eq_or_mem_set hi { t with phase := .writing w' } ht' with rfl | hstays
        · obtain ⟨hphase', rfl⟩ := Task.writing_eq_some.mp hw₁
          rw [hphase] at hphase'
          cases hphase'
          exact .inr (hself' (by rw [hwrote, hwr, Bool.true_or]) key hle)
        · exact .inr ⟨t', hstays, w₁, hw₁, hwr, hle⟩
  · rcases hnew user d key' hk' with ⟨rfl, hle, _⟩ | hold
    · exact hle ▸ h.keys t hmem _ w hself d key hk
    · rw [hk] at hold
      cases hold
      exact Nat.le_refl _

theorem Ordered.write (h : Ordered s) (hi : s.tasks[i]? = some t) (hphase : t.phase = .writing w)
    (hok : (!w.todo.isEmpty && !w.looked) = true ∨ s.mayWrite i t.content.userId w.streamId = true) :
    Ordered ((s.write codec t.content.userId w).1.setPhase i t (s.write codec t.content.userId w).2) ∧
      Advances s ((s.write codec t.content.userId w).1.setPhase i t (s.write codec t.content.userId w).2) := by
  have hmem := List.mem_of_getElem? hi
  have hself : t.writing t.content.userId = some w := Task.writing_eq_some.mpr ⟨hphase, rfl⟩
  unfold State.write
  split
  · rename_i htodo
    refine h.writePosition hi hphase (hok.resolve_left (by simp [htodo])) fun w' => ?_
    split
    · intro hw
      cases hw
    · intro hw
      cases hw
  · refine ⟨h.setPhase hi _ (fun w' hw' => ?_) fun w' hw' hwrote => ?_, .of_eq rfl rfl⟩
    · cases hw'
      exact ⟨h.ahead t hmem _ w hself, h.keys t hmem _ w hself⟩
    · rw [hphase] at hw'
      cases hw'
      exact ⟨_, rfl, hwrote, Nat.le_refl _⟩
  · rename_i device keys rest htodo hlooked
    exact h.writeKey hi hphase (hok.resolve_left (by simp [hlooked])) device keys rfl rfl

theorem Ordered.receive (h : Ordered s) (origin : ServerName) (content : DeviceListUpdateContent) :
    Ordered { s with tasks := s.tasks ++ [⟨origin, content, .received⟩] } := by
  have hold : ∀ t' ∈ s.tasks ++ [⟨origin, content, .received⟩], ∀ user w, t'.writing user =
      some w → t' ∈ s.tasks := by
    intro t' ht' user w hw
    rcases List.mem_append.mp ht' with ht' | ht'
    · exact ht'
    · rw [List.mem_singleton] at ht'
      rw [ht'] at hw
      cases hw
  refine ⟨fun t' ht' user w hw => ?_, fun t' ht' user w hw => ?_, fun user device key hkey => ?_⟩
  · exact h.ahead t' (hold t' ht' user w hw) user w hw
  · exact h.keys t' (hold t' ht' user w hw) user w hw
  · rcases h.covered user device key hkey with hle | ⟨t', ht', hw⟩
    · exact .inl hle
    · exact .inr ⟨t', List.mem_append_left _ ht', hw⟩

omit [DecidableEq D] in
theorem Ordered.check (h : Ordered s) (hi : s.tasks[i]? = some t) (hphase : t.phase = .received)
    (hok : InOrder codec (.check i) s) : Ordered (s.setPhase i t (s.check codec t)) := by
  have hold : ∀ w, t.phase ≠ .writing w := by simp [hphase]
  cases hc : s.check codec t with
  | writing w =>
    refine h.start hi hold ?_
    rw [check_writing hc]
    simpa [InOrder, hi, hc] using hok
  | _ => exact h.pass hi (fun w hw => by cases hw) hold

omit [DecidableEq D] in
theorem Ordered.respond (h : Ordered s) (hi : s.tasks[i]? = some t) {lastSeen : Nat}
    (hphase : t.phase = .fetching lastSeen) {response : Option Response}
    (hok : InOrder codec (.respond i response) s) :
    Ordered (s.setPhase i t (State.respond codec lastSeen response)) := by
  have hold : ∀ w, t.phase ≠ .writing w := by simp [hphase]
  cases hr : State.respond codec lastSeen response with
  | writing w =>
    obtain ⟨r, rfl, hid, hlt⟩ := respond_writing hr
    simp only [InOrder, hi, Option.all_some, hphase, Bool.or_eq_true, decide_eq_true_eq] at hok
    exact h.start hi hold (hid ▸ hok.resolve_left (by omega))
  | _ => exact h.pass hi (fun w hw => by cases hw) hold

theorem step_ordered {a : Action} (h : Ordered s) (hok : InOrder codec a s) (hs : step codec a s = some s') :
    Ordered s' ∧ Advances s s' := by
  cases a with
  | receive origin content =>
    cases hs
    exact ⟨h.receive origin content, .of_eq rfl rfl⟩
  | check i =>
    obtain ⟨t, hi, hs⟩ := Option.bind_eq_some_iff.mp hs
    cases hphase : t.phase with
    | received =>
      simp only [hphase, Option.some.injEq] at hs
      subst hs
      exact ⟨h.check hi hphase hok, .of_eq rfl rfl⟩
    | _ => simp [hphase] at hs
  | place i deferred =>
    obtain ⟨t, hi, hs⟩ := Option.bind_eq_some_iff.mp hs
    cases hphase : t.phase with
    | placing lastSeen =>
      have hold : ∀ w, t.phase ≠ .writing w := by simp [hphase]
      simp only [hphase] at hs
      split at hs
      · cases hs
        have hdeferred : Ordered { s with deferred := t.content.userId :: s.deferred } :=
          ⟨h.ahead, h.keys, h.covered⟩
        exact ⟨hdeferred.pass hi (fun w hw => by cases hw) hold, .of_eq rfl rfl⟩
      · cases hs
        exact ⟨h.pass hi (fun w hw => by cases hw) hold, .of_eq rfl rfl⟩
    | _ => simp [hphase] at hs
  | respond i response =>
    obtain ⟨t, hi, hs⟩ := Option.bind_eq_some_iff.mp hs
    cases hphase : t.phase with
    | fetching lastSeen =>
      simp only [hphase, Option.some.injEq] at hs
      subst hs
      exact ⟨h.respond hi hphase hok, .of_eq rfl rfl⟩
    | _ => simp [hphase] at hs
  | write i =>
    obtain ⟨t, hi, hs⟩ := Option.bind_eq_some_iff.mp hs
    cases hphase : t.phase with
    | writing w =>
      simp only [hphase, Option.some.injEq] at hs
      subst hs
      refine h.write hi hphase ?_
      simp only [InOrder, hi, Option.all_some, hphase, Bool.or_eq_true] at hok
      exact hok
    | _ => simp [hphase] at hs
  | mark i =>
    obtain ⟨t, hi, hs⟩ := Option.bind_eq_some_iff.mp hs
    cases hphase : t.phase with
    | marking =>
      simp only [hphase, Option.some.injEq] at hs
      subst hs
      have hmarked : Ordered { s with marked := t.content.userId :: s.marked } := ⟨h.ahead, h.keys, h.covered⟩
      exact ⟨hmarked.pass hi (fun w hw => by cases hw) (by simp [hphase]), .of_eq rfl rfl⟩
    | _ => simp [hphase] at hs

end

/-! ## Whole runs -/

def State.empty : State where
  streamIds _ := none
  keys _ _ := none
  deferred := []
  marked := []
  tasks := []

theorem empty_ordered : Ordered State.empty where
  ahead _ h := by cases h
  keys _ h := by cases h
  covered _ _ _ h := by cases h

section
variable {D : Type} [DecidableEq D] {codec : Codec D} {s : State}

theorem reaches_ordered (h : Reaches (step codec) (fun a s => InOrder codec a s) State.empty s) : Ordered s :=
  h.invariant empty_ordered fun _ _ _ h hok hs => (step_ordered h hok hs).1

/-- In every run whose updates are written in order, the position of a user never moves
backwards, and a stored key is never replaced by that of an update with a smaller stream
id. -/
theorem device_list_advances (h : Reaches (step codec) (fun a s => InOrder codec a s) State.empty s) :
    (∀ s', Reaches (step codec) (fun a s => InOrder codec a s) s s' →
      ∀ user, s.position user ≤ s'.position user) ∧
    ∀ a s', InOrder codec a s → step codec a s = some s' → ∀ user device key key', s.keys user device = some key →
      s'.keys user device = some key' → key.streamId ≤ key'.streamId := by
  have hs := reaches_ordered h
  refine ⟨fun s' h' user => ?_, fun a s' hok hstep => (step_ordered hs hok hstep).2.keys⟩
  refine (h'.invariant (P := fun x => Ordered x ∧ s.position user ≤ x.position user)
    ⟨hs, Nat.le_refl _⟩ fun a s₁ s₂ h₁ hok hstep => ?_).2
  obtain ⟨h₂, hadv⟩ := step_ordered h₁.1 hok hstep
  exact ⟨h₂, h₁.2.trans (hadv.position user)⟩

end

/-! ## Two updates at once -/

/-- Keys are not looked into. -/
def plainCodec : Codec String := ⟨fun _ => none, fun _ => "", some⟩

def carol : UserId := ⟨"carol", "b"⟩

def update (streamId : Nat) (keys : String) : DeviceListUpdateContent :=
  ⟨carol, "PHONE", streamId, [], none, some keys, none⟩

/-- A newer update after an older one. -/
theorem newer_update_advances :
    ∃ s s', Reaches (step plainCodec) (fun a s => InOrder plainCodec a s) State.empty s ∧
      Reaches (step plainCodec) (fun a s => InOrder plainCodec a s) s s' ∧ s.position carol = 4 ∧
      s.position carol ≤ s'.position carol := by
  have hrun : ((runWhile (step plainCodec) (fun a s => InOrder plainCodec a s) [.receive "b" (update 4 "k4"),
      .receive "b" (update 5 "k5"), .check 0, .check 1, .write 0, .write 0, .write 0] State.empty).map fun s =>
        (s.position carol, (runWhile (step plainCodec) (fun a s => InOrder plainCodec a s)
          [.write 1, .write 1, .write 1] s).isSome)) = some (4, true) := by decide
  obtain ⟨s, hs, hpos⟩ := Option.map_eq_some_iff.mp hrun
  rw [Prod.mk.injEq] at hpos
  obtain ⟨s', hs'⟩ := Option.isSome_iff_exists.mp hpos.2
  have hreach := Reaches.of_runWhile _ .init hs
  have hreach' := Reaches.of_runWhile _ .init hs'
  exact ⟨s, s', hreach, hreach', hpos.1, (device_list_advances hreach).1 s' hreach' carol⟩

/-- The older update is written last. -/
theorem older_update_written_last :
    ¬ ∀ s, Reaches (step plainCodec) (fun _ _ => True) State.empty s →
      ∀ a s', step plainCodec a s = some s' →
        (∀ user, s.position user ≤ s'.position user) ∧
        ∀ user device key key', s.keys user device = some key → s'.keys user device = some key' →
          key.streamId ≤ key'.streamId := by
  intro h
  have hrun : ((runWhile (step plainCodec) (fun _ _ => True)
      [.receive "b" (update 4 "k4"), .receive "b" (update 5 "k5"), .check 0, .check 1, .write 1,
        .write 1, .write 1, .write 0, .write 0] State.empty).map fun s =>
        (s.position carol, (step plainCodec (.write 0) s).map fun s' => s'.position carol)) =
      some (5, some 4) := by decide
  obtain ⟨s, hs, hpos⟩ := Option.map_eq_some_iff.mp hrun
  rw [Prod.mk.injEq] at hpos
  obtain ⟨s', hs', hpos'⟩ := Option.map_eq_some_iff.mp hpos.2
  have hback := (h s (Reaches.of_runWhile _ .init hs) (.write 0) s' hs').1 carol
  omega

-- one after the other: the position 5 is read as 0
example : (runWhile (step plainCodec) (fun _ _ => True) [.receive "b" (update 5 "k5"), .check 0, .write 0, .write 0,
    .write 0, .receive "b" (update 4 "k4"), .check 1, .write 1, .write 1, .write 1] State.empty).map
      (·.position carol) = some 4 := by decide

end Congruent.DeviceLists
