import Congruent.DeviceKeyUpdates

/-!
# The inbox of a device (`add_to_device_event`, `get_to_device_events`, `remove_to_device_events`)

A message is put at a count drawn before, outside the barrier. A `/sync` reads the end of its
window, removes what its token acknowledges and returns what lies in the window.
-/

namespace Congruent.ToDeviceInbox

open DeviceKeyUpdates (nextCountBatch nextCountBatch_eq_some)

/-- A user and one of the user's devices. -/
abbrev Device := String ×ₗ String

abbrev Key := Device ×ₗ Nat

structure Event where
  eventType : String
  sender : String
  content : String
  deriving DecidableEq

abbrev Table := SortedMap Key Event

def getToDeviceEvents (t : Table) (device : Device) (since upTo : Option Nat) : List (Nat × Event) :=
  t.rowsFrom device (since.elim 0 fun n => min (n + 1) DeviceKeyUpdates.u64Max) fun count => upTo.all (count ≤ ·)

/-- The keys that `remove_to_device_events` goes through: none without an acknowledged position. -/
def acknowledged (t : Table) (device : Device) : Option Nat → List Key
  | none => []
  | some upTo => (t.rowsFrom device 0 fun count => count ≤ upTo).map fun row => toLex (device, row.1)

/-! ## Calls, requests and clients -/

inductive Stage where
  | called
  | drawn (count : Nat)
  | finished
  deriving DecidableEq

/-- A call of `add_to_device_event`. -/
structure Add where
  device : Device
  event : Event
  stage : Stage

/-- A `/sync` of a device. -/
structure Request where
  device : Device
  since : Option Nat
  /-- The end of the window, once read. -/
  bound : Option Nat
  /-- The keys left to remove, once collected. -/
  removing : Option (List Key)
  events : Option (List (Nat × Event))

/-- A client that passes each `next_batch` on. -/
structure Client where
  token : Option Nat
  received : List (Nat × Event)

structure World where
  counter : Nat
  todeviceidEvents : Table
  adds : List Add
  requests : List Request
  clients : Device → Client
  /-- All messages ever put. -/
  sent : List (Device × Nat × Event)

namespace World

def new : World := ⟨0, .empty, [], [], fun _ => ⟨none, []⟩, []⟩

def setAdd (s : World) (i : Nat) (a : Add) : World := { s with adds := s.adds.set i a }

def setRequest (s : World) (k : Nat) (r : Request) : World := { s with requests := s.requests.set k r }

end World

inductive Action where
  | add (device : Device) (event : Event)
  | draw (i : Nat)
  | put (i : Nat)
  | drop (i : Nat)
  | other (diff : Nat)
  | sync (device : Device)
  | bound (k : Nat)
  | collect (k : Nat)
  | remove (k : Nat)
  | scan (k : Nat)
  | receive (k : Nat)
  | lose (k : Nat)
  | restart

def step : Action → World → Option World
  | .add device event, s => some { s with adds := s.adds ++ [⟨device, event, .called⟩] }
  | .draw i, s =>
    match s.adds[i]? with
    | some ⟨device, event, .called⟩ =>
      (nextCountBatch s.counter 1).map fun count =>
        { s.setAdd i ⟨device, event, .drawn count⟩ with counter := count }
    | _ => none
  | .put i, s =>
    match s.adds[i]? with
    | some ⟨device, event, .drawn count⟩ =>
      some { s.setAdd i ⟨device, event, .finished⟩ with
        todeviceidEvents := s.todeviceidEvents.insert (toLex (device, count)) event
        sent := s.sent ++ [(device, count, event)] }
    | _ => none
  | .drop i, s => s.adds[i]?.map fun a => s.setAdd i { a with stage := .finished }
  | .other diff, s => (nextCountBatch s.counter diff).map fun count => { s with counter := count }
  | .sync device, s =>
    some { s with requests := s.requests ++ [⟨device, (s.clients device).token, none, none, none⟩] }
  | .bound k, s =>
    match s.requests[k]? with
    | some ⟨device, since, none, removing, events⟩ =>
      some (s.setRequest k ⟨device, since, some s.counter, removing, events⟩)
    | _ => none
  | .collect k, s =>
    match s.requests[k]? with
    | some ⟨device, since, some bound, none, events⟩ =>
      some (s.setRequest k ⟨device, since, some bound, some (acknowledged s.todeviceidEvents device since), events⟩)
    | _ => none
  | .remove k, s =>
    match s.requests[k]? with
    | some ⟨device, since, bound, some (key :: keys), events⟩ =>
      some { s.setRequest k ⟨device, since, bound, some keys, events⟩ with
        todeviceidEvents := s.todeviceidEvents.remove key }
    | _ => none
  | .scan k, s =>
    match s.requests[k]? with
    | some ⟨device, since, some bound, removing, none⟩ =>
      some (s.setRequest k ⟨device, since, some bound, removing,
        some (getToDeviceEvents s.todeviceidEvents device since (some bound))⟩)
    | _ => none
  | .receive k, s =>
    match s.requests[k]? with
    | some ⟨device, since, some bound, some [], some events⟩ =>
      -- the client still waits for the response to this token
      if since = (s.clients device).token then
        some { s with
          requests := s.requests.eraseIdx k
          clients := Function.update s.clients device ⟨some bound, (s.clients device).received ++ events⟩ }
      else none
    | _ => none
  | .lose k, s => s.requests[k]?.map fun _ => { s with requests := s.requests.eraseIdx k }
  | .restart, s => some { s with adds := s.adds.map fun a => { a with stage := .finished }, requests := [] }

/-! ## Scans -/

section
variable {t : Table} {device : Device} {since upTo : Option Nat} {count : Nat} {event : Event}

theorem mem_getToDeviceEvents : (count, event) ∈ getToDeviceEvents t device since upTo ↔
    (toLex (device, count), event) ∈ t ∧ since.elim 0 (fun n => min (n + 1) DeviceKeyUpdates.u64Max) ≤ count ∧
      upTo.all (count ≤ ·) = true := by
  refine SortedMap.mem_rowsFrom fun a b hab hb => ?_
  cases upTo with
  | none => rfl
  | some n => exact decide_eq_true (hab.trans (of_decide_eq_true hb))

theorem getToDeviceEvents_sorted (t : Table) (device : Device) (since upTo : Option Nat) :
    (getToDeviceEvents t device since upTo).Pairwise fun a b => a.1 < b.1 :=
  t.rowsFrom_sorted device _ _

theorem mem_acknowledged {key : Key} (h : key ∈ acknowledged t device since) :
    ∃ upTo, since = some upTo ∧ (ofLex key).1 = device ∧ (ofLex key).2 ≤ upTo := by
  cases since with
  | none => cases h
  | some upTo =>
    obtain ⟨⟨count, event⟩, he, rfl⟩ := List.mem_map.mp h
    have hrow := (SortedMap.mem_rowsFrom fun a b hab hb => decide_eq_true (hab.trans (of_decide_eq_true hb))).mp he
    exact ⟨upTo, rfl, rfl, of_decide_eq_true hrow.2.2⟩

end

/-! ## Counts and rows -/

/-- The counts at which messages for a device may still be put, and the messages put. -/
def World.board (s : World) (me : Device) : Board (Set Event) where
  counter := s.counter
  held := {p | ∃ a ∈ s.adds, a.device = me ∧ a.stage = .drawn p}
  shown p := {e | (me, p, e) ∈ s.sent}

/-- Each count drawn is of one call, no message stands at it yet, and rows are messages put. -/
structure Rows (s : World) : Prop where
  drawn : ∀ a ∈ s.adds, ∀ p, a.stage = .drawn p → 0 < p ∧ p ≤ s.counter ∧ ∀ d e, (d, p, e) ∉ s.sent
  apart : ∀ (i j : Nat) (a b : Add), s.adds[i]? = some a → s.adds[j]? = some b →
    (∃ p, a.stage = .drawn p ∧ b.stage = .drawn p) → i = j
  sent_le : ∀ d p e, (d, p, e) ∈ s.sent → 0 < p ∧ p ≤ s.counter
  rows : ∀ d p e, (toLex (d, p), e) ∈ s.todeviceidEvents → (d, p, e) ∈ s.sent

theorem rows_new : Rows .new where
  drawn a ha := absurd ha List.not_mem_nil
  apart i j a b hi := by cases hi
  sent_le d p e he := absurd he List.not_mem_nil
  rows d p e he := absurd he (SortedMap.not_mem_empty _)

section
variable {a : Action} {s s' : World} {me : Device}

/-- A call of the pool changes its stage to one that holds no count, and its message is put or
not. -/
theorem Rows.set (h : Rows s) {i : Nat} {x y : Add} (hi : s.adds[i]? = some x) (hy : ∀ p, y.stage ≠ .drawn p) :
    Rows (s.setAdd i y) where
  drawn b hb p hp := by
    rcases mem_set_of_some hi hb with rfl | ⟨j, -, hj⟩
    · exact absurd hp (hy p)
    · exact h.drawn b (List.mem_of_getElem? hj) p hp
  apart j k b c hj hk hbc := by
    refine apart_set hi h.apart (fun l d _ _ => ⟨?_, ?_⟩) hj hk hbc
    · exact fun ⟨p, hp, _⟩ => hy p hp
    · exact fun ⟨p, _, hp⟩ => hy p hp
  sent_le := h.sent_le
  rows := h.rows

theorem Rows.put (h : Rows s) {i : Nat} {device : Device} {event : Event} {count : Nat}
    (hi : s.adds[i]? = some ⟨device, event, .drawn count⟩) :
    Rows { s.setAdd i ⟨device, event, .finished⟩ with
      todeviceidEvents := s.todeviceidEvents.insert (toLex (device, count)) event
      sent := s.sent ++ [(device, count, event)] } := by
  have hset := h.set hi (y := ⟨device, event, .finished⟩) (fun p hp => by cases hp)
  obtain ⟨hpos, hle, -⟩ := h.drawn _ (List.mem_of_getElem? hi) count rfl
  refine ⟨fun b hb p hp => ?_, hset.apart, fun d p e he => ?_, fun d p e he => ?_⟩
  · obtain ⟨hp0, hple, hfree⟩ := hset.drawn b hb p hp
    refine ⟨hp0, hple, fun d e he => ?_⟩
    rcases List.mem_append.mp he with he | he
    · exact hfree d e he
    · -- another call would hold the count of this one
      cases List.mem_singleton.mp he
      rcases mem_set_of_some hi hb with rfl | ⟨j, hne, hj⟩
      · cases hp
      · exact hne (h.apart j i b _ hj hi ⟨count, hp, rfl⟩)
  · rcases List.mem_append.mp he with he | he
    · exact h.sent_le d p e he
    · cases List.mem_singleton.mp he
      exact ⟨hpos, hle⟩
  · rcases SortedMap.mem_insert.mp he with heq | ⟨he, -⟩
    · cases heq
      exact List.mem_append_right _ (List.mem_singleton_self _)
    · exact List.mem_append_left _ (h.rows d p e he)

theorem Rows.step (h : Rows s) (hs : step a s = some s') : Rows s' := by
  cases a with
  | add device event =>
    cases hs
    have hnew : ∀ {j : Nat} {b : Add} {p : Nat}, (s.adds ++ [⟨device, event, .called⟩])[j]? = some b →
        b.stage = .drawn p → s.adds[j]? = some b := by
      intro j b p hj hp
      rw [List.getElem?_append] at hj
      split at hj
      · exact hj
      · rw [List.mem_singleton.mp (List.mem_of_getElem? hj)] at hp
        cases hp
    refine ⟨fun b hb p hp => ?_, fun j k b c hj hk ⟨p, hb, hc⟩ => ?_, h.sent_le, h.rows⟩
    · obtain ⟨j, hj⟩ := List.mem_iff_getElem?.mp hb
      exact h.drawn b (List.mem_of_getElem? (hnew hj hp)) p hp
    · exact h.apart j k b c (hnew hj hb) (hnew hk hc) ⟨p, hb, hc⟩
  | draw i =>
    simp only [ToDeviceInbox.step] at hs
    split at hs
    · rename_i device event hi
      obtain ⟨count, hcount, rfl⟩ := Option.map_eq_some_iff.mp hs
      obtain ⟨rfl, -⟩ := nextCountBatch_eq_some hcount
      refine ⟨fun b hb p hp => ?_, fun j k b c hj hk hbc => ?_, fun d p e he => ?_, h.rows⟩
      · rcases mem_set_of_some hi hb with rfl | ⟨j, -, hj⟩
        · cases hp
          exact ⟨Nat.succ_pos _, Nat.le_refl _, fun d e he => absurd (h.sent_le d _ e he).2
            (Nat.not_succ_le_self _)⟩
        · obtain ⟨hp0, hple, hfree⟩ := h.drawn b (List.mem_of_getElem? hj) p hp
          exact ⟨hp0, Nat.le_succ_of_le hple, hfree⟩
      · -- a fresh count is no other call's
        refine apart_set hi h.apart (fun l d _ hl => ⟨?_, ?_⟩) hj hk hbc
        · rintro ⟨p, hp, hd⟩
          cases hp
          exact absurd (h.drawn d (List.mem_of_getElem? hl) _ hd).2.1 (Nat.not_succ_le_self _)
        · rintro ⟨p, hd, hp⟩
          cases hp
          exact absurd (h.drawn d (List.mem_of_getElem? hl) _ hd).2.1 (Nat.not_succ_le_self _)
      · exact ⟨(h.sent_le d p e he).1, Nat.le_succ_of_le (h.sent_le d p e he).2⟩
    · cases hs
  | put i =>
    simp only [ToDeviceInbox.step] at hs
    split at hs
    · rename_i device event count hi
      cases hs
      exact h.put hi
    · cases hs
  | drop i =>
    obtain ⟨x, hi, rfl⟩ := Option.map_eq_some_iff.mp hs
    exact h.set hi fun p hp => by cases hp
  | other diff =>
    obtain ⟨count, hcount, rfl⟩ := Option.map_eq_some_iff.mp hs
    obtain ⟨rfl, -⟩ := nextCountBatch_eq_some hcount
    refine ⟨fun b hb p hp => ?_, h.apart, fun d p e he => ?_, h.rows⟩
    · obtain ⟨hp0, hple, hfree⟩ := h.drawn b hb p hp
      exact ⟨hp0, hple.trans (Nat.le_add_right _ _), hfree⟩
    · exact ⟨(h.sent_le d p e he).1, (h.sent_le d p e he).2.trans (Nat.le_add_right _ _)⟩
  | remove k =>
    simp only [ToDeviceInbox.step] at hs
    split at hs
    · cases hs
      exact ⟨h.drawn, h.apart, h.sent_le, fun d p e he => h.rows d p e (SortedMap.mem_remove.mp he).1⟩
    · cases hs
  | restart =>
    cases hs
    refine ⟨fun b hb p hp => ?_, fun j k b c hj _ ⟨p, hp, _⟩ => ?_, h.sent_le, h.rows⟩
    · obtain ⟨x, -, rfl⟩ := List.mem_map.mp hb
      cases hp
    · obtain ⟨x, -, rfl⟩ := List.mem_map.mp (List.mem_of_getElem? hj)
      cases hp
  | sync device => cases hs; exact ⟨h.drawn, h.apart, h.sent_le, h.rows⟩
  | lose k =>
    obtain ⟨r, -, rfl⟩ := Option.map_eq_some_iff.mp hs
    exact ⟨h.drawn, h.apart, h.sent_le, h.rows⟩
  | bound k | collect k | scan k | receive k =>
    simp only [ToDeviceInbox.step] at hs
    repeat' split at hs
    all_goals first | cases hs; exact ⟨h.drawn, h.apart, h.sent_le, h.rows⟩ | cases hs

/-- Messages are put at counts held, and counts are drawn from the counter. -/
theorem board_step (hs : step a s = some s') (me : Device) : (s.board me).Step (s'.board me) := by
  have hless : ∀ {t : World}, t.counter = s.counter → t.sent = s.sent →
      (∀ x ∈ t.adds, ∀ p, x.stage = .drawn p → x ∈ s.adds) → (s.board me).Step (t.board me) := by
    intro t hc hsent hadds
    refine ⟨hc.ge, fun p ⟨x, hx, hme, hp⟩ => .inl ⟨x, hadds x hx p hp, hme, hp⟩, fun p _ _ => ?_⟩
    simp only [World.board, hsent]
  cases a with
  | add device event =>
    cases hs
    refine hless rfl rfl fun x hx p hp => ?_
    rcases List.mem_append.mp hx with hx | hx
    · exact hx
    · rw [List.mem_singleton.mp hx] at hp
      cases hp
  | draw i =>
    simp only [step] at hs
    split at hs
    · rename_i device event hi
      obtain ⟨count, hcount, rfl⟩ := Option.map_eq_some_iff.mp hs
      obtain ⟨rfl, -⟩ := nextCountBatch_eq_some hcount
      refine ⟨Nat.le_succ _, fun p ⟨x, hx, hme, hp⟩ => ?_, fun _ _ _ => rfl⟩
      rcases mem_set_of_some hi hx with rfl | ⟨j, -, hj⟩
      · cases hp
        exact .inr (Nat.lt_succ_self _)
      · exact .inl ⟨x, List.mem_of_getElem? hj, hme, hp⟩
    · cases hs
  | put i =>
    simp only [step] at hs
    split at hs
    · rename_i device event count hi
      cases hs
      refine ⟨Nat.le_refl _, fun p ⟨x, hx, hme, hp⟩ => ?_, fun p _ hfree => ?_⟩
      · rcases mem_set_of_some hi hx with rfl | ⟨j, -, hj⟩
        · cases hp
        · exact .inl ⟨x, List.mem_of_getElem? hj, hme, hp⟩
      · have hne : ¬ (me = device ∧ p = count) := fun ⟨hd, hp⟩ =>
          hfree ⟨_, List.mem_of_getElem? hi, hd.symm, hp ▸ rfl⟩
        ext e
        simp only [World.board, World.setAdd, Set.mem_ofPred_eq, List.mem_append, List.mem_singleton, Prod.mk.injEq]
        constructor
        · rintro (he | ⟨hd, hp, -⟩)
          · exact he
          · exact absurd ⟨hd, hp⟩ hne
        · exact .inl
    · cases hs
  | drop i =>
    obtain ⟨x, hi, rfl⟩ := Option.map_eq_some_iff.mp hs
    refine hless rfl rfl fun y hy p hp => ?_
    rcases mem_set_of_some hi hy with rfl | ⟨j, -, hj⟩
    · cases hp
    · exact List.mem_of_getElem? hj
  | other diff =>
    obtain ⟨count, hcount, rfl⟩ := Option.map_eq_some_iff.mp hs
    obtain ⟨rfl, -⟩ := nextCountBatch_eq_some hcount
    exact ⟨Nat.le_add_right _ _, fun _ hp => .inl hp, fun _ _ _ => rfl⟩
  | restart =>
    cases hs
    refine hless rfl rfl fun x hx p hp => ?_
    obtain ⟨y, -, rfl⟩ := List.mem_map.mp hx
    cases hp
  | sync device => cases hs; exact .refl _
  | lose k =>
    obtain ⟨r, -, rfl⟩ := Option.map_eq_some_iff.mp hs
    exact .refl _
  | bound k | collect k | remove k | scan k | receive k =>
    simp only [step] at hs
    repeat' split at hs
    all_goals first | cases hs; exact .refl _ | cases hs

end

end Congruent.ToDeviceInbox
