import Congruent.ReadReceipts

/-!
# Private read markers

Calls of `private_read_set` run side by side; each compares and writes under one lock. A
marker only moves forward, and the call that moves it is the one that returns true.
-/

namespace Congruent.ReadReceipts

/-- The private receipts of a user by thread: the count read up to, the receipt and the
count of its update. -/
abbrev PrivateReadReceipts := AList fun _ : String => Nat × ReceiptEvent × Nat

/-- A stored record: by thread, a single receipt from before there were threads, or bytes
that are neither. -/
inductive PrivateRecord where
  | perThread (receipts : PrivateReadReceipts)
  | legacy (count : Nat) (event : ReceiptEvent) (updated : Nat)
  | undecodable

def privateReceipts (user : UserId) : Option PrivateRecord → PrivateReadReceipts
  | some (.perThread receipts) => receipts
  | some (.legacy count event updated) => AList.singleton (eventThread user event) (count, event, updated)
  | some .undecodable | none => ∅

/-- `roomuserid_privatereadreceipt`. -/
abbrev PrivateRecords := RoomId → UserId → Option PrivateRecord

def privateCount (records : PrivateRecords) (room : RoomId) (user : UserId) (thread : String) : Option Nat :=
  ((privateReceipts user (records room user)).lookup thread).map (·.1)

/-! ## Calls of `private_read_set` -/

structure PrivateReadSet where
  room : RoomId
  user : UserId
  count : Nat
  receipt : ReceiptEvent

inductive PrivatePhase where
  | waiting
  -- under `private_read_mutex`
  | locked
  | loaded (receipts : PrivateReadReceipts)
  | counted (receipts : PrivateReadReceipts) (next : Nat)
  -- what the call returned, `none` when there was no next count
  | returned (applied : Option Bool)

def PrivatePhase.holds : PrivatePhase → Bool
  | .locked | .loaded _ | .counted _ _ => true
  | .waiting | .returned _ => false

structure PrivateTask where
  call : PrivateReadSet
  phase : PrivatePhase

namespace PrivateReadSet

def thread (call : PrivateReadSet) : String := eventThread call.user call.receipt

def stale (call : PrivateReadSet) (receipts : PrivateReadReceipts) : Bool :=
  (receipts.lookup call.thread).any fun entry => call.count ≤ entry.1

def put (call : PrivateReadSet) (receipts : PrivateReadReceipts) (next : Nat) (records : PrivateRecords) :
    PrivateRecords := fun room user =>
  if room = call.room ∧ user = call.user then
    some (.perThread (receipts.insert call.thread (call.count, call.receipt, next)))
  else records room user

end PrivateReadSet

structure PrivateState where
  records : PrivateRecords
  tasks : List PrivateTask

/-- A call goes on; `free` tells that no call has the lock, `next` is what `next_count` answers. -/
def PrivateTask.go (t : PrivateTask) (records : PrivateRecords) (free : Bool) (next : Option Nat) :
    Option (PrivateRecords × PrivatePhase) :=
  match t.phase with
  | .waiting => if free then some (records, .locked) else none
  | .locked => some (records, .loaded (privateReceipts t.call.user (records t.call.room t.call.user)))
  | .loaded receipts =>
    if t.call.stale receipts then some (records, .returned (some false))
    else
      match next with
      | none => some (records, .returned none)
      | some next => some (records, .counted receipts next)
  | .counted receipts next => some (t.call.put receipts next records, .returned (some true))
  | .returned _ => none

structure PrivateAction where
  task : Nat
  next : Option Nat

def privateStep (a : PrivateAction) (s : PrivateState) : Option PrivateState :=
  s.tasks[a.task]?.bind fun t =>
    (t.go s.records (s.tasks.all fun t => !t.phase.holds) a.next).map fun r =>
      ⟨r.1, s.tasks.set a.task ⟨t.call, r.2⟩⟩

/-! ## Under the lock -/

def PrivateTask.Loaded (records : PrivateRecords) (t : PrivateTask) : Prop :=
  match t.phase with
  | .loaded receipts => receipts = privateReceipts t.call.user (records t.call.room t.call.user)
  | .counted receipts _ =>
    receipts = privateReceipts t.call.user (records t.call.room t.call.user) ∧ t.call.stale receipts = false
  | _ => True

structure PrivateState.Exclusive (s : PrivateState) : Prop where
  one : ∀ (i j : Nat) (t t' : PrivateTask), s.tasks[i]? = some t → s.tasks[j]? = some t' →
    (t.phase.holds = true ∧ t'.phase.holds = true) → i = j
  loaded : ∀ (i : Nat) (t : PrivateTask), s.tasks[i]? = some t → t.Loaded s.records

/-- The count is set where it was not, or moves forward. -/
def Raised (before after : Option Nat) : Prop := ∃ n, after = some n ∧ ∀ m, before = some m → m < n

/-- What a call may do next. -/
inductive PrivateTask.Goes (t : PrivateTask) (records : PrivateRecords) (free : Bool) :
    PrivateRecords → PrivatePhase → Prop where
  | lock : t.phase = .waiting → free = true → t.Goes records free records .locked
  | load : t.phase = .locked →
    t.Goes records free records (.loaded (privateReceipts t.call.user (records t.call.room t.call.user)))
  | refuse {receipts} : t.phase = .loaded receipts → t.call.stale receipts = true →
    t.Goes records free records (.returned (some false))
  | fail {receipts} : t.phase = .loaded receipts → t.Goes records free records (.returned none)
  | count {receipts} (next : Nat) : t.phase = .loaded receipts → t.call.stale receipts = false →
    t.Goes records free records (.counted receipts next)
  | put {receipts next} : t.phase = .counted receipts next →
    t.Goes records free (t.call.put receipts next records) (.returned (some true))

section
variable {s s' : PrivateState} {a : PrivateAction} {t : PrivateTask}

theorem PrivateTask.go_goes {records records' : PrivateRecords} {free : Bool} {next : Option Nat}
    {phase : PrivatePhase}
    (h : t.go records free next = some (records', phase)) : t.Goes records free records' phase := by
  unfold PrivateTask.go at h
  cases hphase : t.phase with
  | waiting =>
    simp only [hphase] at h
    split at h
    · rename_i hfree
      cases h
      exact .lock hphase hfree
    · cases h
  | locked =>
    simp only [hphase] at h
    cases h
    exact .load hphase
  | loaded receipts =>
    simp only [hphase] at h
    split at h
    · rename_i hstale
      cases h
      exact .refuse hphase hstale
    · rename_i hstale
      split at h
      · cases h
        exact .fail hphase
      · cases h
        exact .count _ hphase (by simpa using hstale)
  | counted receipts next =>
    simp only [hphase] at h
    cases h
    exact .put hphase
  | returned applied =>
    simp only [hphase] at h
    cases h

theorem privateStep_goes (h : privateStep a s = some s') :
    ∃ t records phase, s.tasks[a.task]? = some t ∧ s' = ⟨records, s.tasks.set a.task ⟨t.call, phase⟩⟩ ∧
      t.Goes s.records (s.tasks.all fun t => !t.phase.holds) records phase := by
  obtain ⟨t, ht, h⟩ := Option.bind_eq_some_iff.mp h
  obtain ⟨⟨records, phase⟩, hgo, rfl⟩ := Option.map_eq_some_iff.mp h
  exact ⟨t, records, phase, ht, rfl, PrivateTask.go_goes hgo⟩

theorem PrivateState.Exclusive.alone (h : s.Exclusive) (ht : s.tasks[a.task]? = some t) {records : PrivateRecords}
    {phase : PrivatePhase} (hgoes : t.Goes s.records (s.tasks.all fun t => !t.phase.holds) records phase)
    {j : Nat} {t' : PrivateTask} (hj : s.tasks[j]? = some t') (hne : j ≠ a.task) : t'.phase.holds = false := by
  by_contra hholds
  have hholds : t'.phase.holds = true := by simpa using hholds
  have hone : t.phase.holds = true → False := fun ht' => hne (h.one j a.task t' t hj ht ⟨hholds, ht'⟩)
  cases hgoes with
  | lock _ hfree =>
    have := List.all_eq_true.mp hfree t' (List.mem_of_getElem? hj)
    simp [hholds] at this
  | load hp | refuse hp | fail hp | count _ hp | put hp => exact hone (by rw [hp]; rfl)

theorem lookup_put (call : PrivateReadSet) (receipts : PrivateReadReceipts) (next : Nat)
    (records : PrivateRecords) :
    privateReceipts call.user (call.put receipts next records call.room call.user) =
      receipts.insert call.thread (call.count, call.receipt, next) := by
  unfold PrivateReadSet.put
  rw [if_pos ⟨rfl, rfl⟩]
  rfl

theorem PrivateState.Exclusive.step (h : s.Exclusive) (hs : privateStep a s = some s') : s'.Exclusive := by
  obtain ⟨t, records, phase, ht, rfl, hgoes⟩ := privateStep_goes hs
  have halone : ∀ (j : Nat) (t' : PrivateTask), j ≠ a.task → s.tasks[j]? = some t' → t'.phase.holds = false :=
    fun j t' hne hj => h.alone ht hgoes hj hne
  refine ⟨fun i j t₁ t₂ hi hj hheld => ?_, fun i t' hi => ?_⟩
  · refine apart_set ht (R := fun t t' => t.phase.holds = true ∧ t'.phase.holds = true) h.one
      (fun j t' hne hj => ?_) hi hj hheld
    simp [halone j t' hne hj]
  · rw [getElem?_set_of_some ht] at hi
    split at hi
    · -- the call that went on
      cases hi
      have hloaded := h.loaded a.task t ht
      unfold PrivateTask.Loaded at hloaded ⊢
      cases hgoes with
      | lock | refuse | fail | put => trivial
      | load => rfl
      | count next hp hstale =>
        rw [hp] at hloaded
        exact ⟨hloaded, hstale⟩
    · -- the others have no lock, so they have loaded nothing
      rename_i hne
      have hfree := halone i t' hne hi
      unfold PrivateTask.Loaded
      cases hp : t'.phase with
      | waiting | returned => trivial
      | locked | loaded | counted =>
        rw [hp] at hfree
        cases hfree

theorem PrivateState.exclusive_waiting (h : ∀ t ∈ s.tasks, t.phase = .waiting) : s.Exclusive where
  one i j t t' hi _ hheld := by
    rw [h t (List.mem_of_getElem? hi)] at hheld
    exact absurd hheld.1 (by decide)
  loaded i t hi := by
    unfold PrivateTask.Loaded
    rw [h t (List.mem_of_getElem? hi)]
    trivial

structure Forward (s s' : PrivateState) (a : PrivateAction) : Prop where
  kept : ∀ room user thread n, privateCount s.records room user thread = some n →
    ∃ n', privateCount s'.records room user thread = some n' ∧ n ≤ n'
  raised : ∀ t', s'.tasks[a.task]? = some t' → (t'.phase = .returned (some true) ↔
    Raised (privateCount s.records t'.call.room t'.call.user t'.call.thread)
      (privateCount s'.records t'.call.room t'.call.user t'.call.thread))

theorem not_raised_self (o : Option Nat) : ¬ Raised o o := by
  rintro ⟨n, rfl, h⟩
  exact Nat.lt_irrefl n (h n rfl)

theorem privateCount_put (call : PrivateReadSet) (next : Nat) (records : PrivateRecords)
    (room : RoomId) (user : UserId)
    (thread : String) :
    privateCount (call.put (privateReceipts call.user (records call.room call.user)) next records) room
      user thread =
      if room = call.room ∧ user = call.user ∧ thread = call.thread then some call.count
      else privateCount records room user thread := by
  unfold privateCount
  by_cases hkey : room = call.room ∧ user = call.user
  · obtain ⟨rfl, rfl⟩ := hkey
    rw [lookup_put]
    by_cases hthread : thread = call.thread
    · rw [hthread, AList.lookup_insert]
      simp
    · simp [hthread, AList.lookup_insert_ne hthread]
  · have hne : ¬ (room = call.room ∧ user = call.user ∧ thread = call.thread) := fun h => hkey ⟨h.1, h.2.1⟩
    rw [if_neg hne, PrivateReadSet.put, if_neg hkey]

theorem PrivateState.Exclusive.forward (h : s.Exclusive) (hs : privateStep a s = some s') : Forward s s' a := by
  obtain ⟨t, records, phase, ht, rfl, hgoes⟩ := privateStep_goes hs
  have hself : ∀ t', (s.tasks.set a.task ⟨t.call, phase⟩)[a.task]? = some t' → t' = ⟨t.call, phase⟩ := by
    intro t' ht'
    rw [getElem?_set_of_some ht, if_pos rfl] at ht'
    exact (Option.some.inj ht').symm
  cases hgoes with
  | lock hp | load hp | refuse hp | fail hp | count _ hp =>
    refine ⟨fun room user thread n hn => ⟨n, hn, Nat.le_refl n⟩, fun t' ht' => ?_⟩
    rw [hself t' ht']
    exact iff_of_false (by simp) (not_raised_self _)
  | put hp =>
    have hloaded := h.loaded a.task t ht
    unfold PrivateTask.Loaded at hloaded
    rw [hp] at hloaded
    obtain ⟨rfl, hstale⟩ := hloaded
    -- the marker of the thread is behind the count of the call
    have hbehind : ∀ m, privateCount s.records t.call.room t.call.user t.call.thread = some m →
        m < t.call.count := by
      intro m hm
      obtain ⟨entry, hentry, rfl⟩ := Option.map_eq_some_iff.mp hm
      unfold PrivateReadSet.stale at hstale
      rw [hentry] at hstale
      simpa using hstale
    refine ⟨fun room user thread n hn => ?_, fun t' ht' => ?_⟩
    · rw [privateCount_put]
      split
      · rename_i hkey
        obtain ⟨rfl, rfl, rfl⟩ := hkey
        exact ⟨t.call.count, rfl, (hbehind n hn).le⟩
      · exact ⟨n, hn, Nat.le_refl n⟩
    · rw [hself t' ht']
      refine iff_of_true rfl ⟨t.call.count, ?_, hbehind⟩
      rw [privateCount_put, if_pos ⟨rfl, rfl, rfl⟩]

/-- In every interleaving of calls the markers move forward, and the calls that return true
are those that raise them. -/
theorem private_reads_forward {s₀ : PrivateState} (h₀ : ∀ t ∈ s₀.tasks, t.phase = .waiting)
    (hrun : Reaches privateStep (fun _ _ => True) s₀ s) (hs : privateStep a s = some s') : Forward s s' a := by
  have h : s.Exclusive := Reaches.invariant (PrivateState.exclusive_waiting h₀) (fun _ _ _ h _ hs => h.step hs) hrun
  exact h.forward hs

end

end Congruent.ReadReceipts
