import Mathlib.Algebra.Ring.Nat
import Congruent.KeyedMap
import Congruent.Machine

/-!
# Short ids of rooms

`get_or_create_shortroomid`, many calls at a time. A call reads the room's row, draws a
number from the counter of the server and writes the row, and nothing holds the others
off in between.
-/

namespace Congruent.ShortRooms

abbrev RoomId := String

def u64Max : Nat := 18446744073709551615

inductive Phase where
  | reading
  /-- The room has no row, as far as the call knows. -/
  | drawing
  | writing (short : Nat)
  | returned (short : Nat)
  | panicked
  deriving DecidableEq

structure Call where
  roomId : RoomId
  phase : Phase
  deriving DecidableEq

namespace Call

def creates (c : Call) : Bool :=
  match c.phase with
  | .drawing | .writing _ => true
  | .reading | .returned _ | .panicked => false

end Call

structure State where
  /-- `roomid_shortroomid`. -/
  rows : AList fun _ : RoomId => Nat
  counter : Nat
  calls : List Call

inductive Action where
  | call (roomId : RoomId)
  /-- A call goes on; whether its read fails. -/
  | go (i : Nat) (fails : Bool)
  | count

namespace State

def nextCount (s : State) : Option (Nat × State) :=
  if u64Max < s.counter + 1 then none else some (s.counter + 1, { s with counter := s.counter + 1 })

def setPhase (s : State) (i : Nat) (c : Call) (phase : Phase) : State :=
  { s with calls := s.calls.set i { c with phase := phase } }

/-- What a call does up to its next access. A read that fails is a row that is missing. -/
def goOn (s : State) (i : Nat) (c : Call) (fails : Bool) : Option State :=
  match c.phase with
  | .reading =>
    match if fails then none else s.rows.lookup c.roomId with
    | some short => some (s.setPhase i c (.returned short))
    | none => some (s.setPhase i c .drawing)
  | .drawing =>
    match s.nextCount with
    | some (short, s) => some (s.setPhase i c (.writing short))
    | none => some (s.setPhase i c .panicked)
  | .writing short =>
    some (setPhase { s with rows := s.rows.insert c.roomId short } i c (.returned short))
  | .returned _ | .panicked => none

def step : Action → State → Option State
  | .call roomId, s => some { s with calls := s.calls ++ [⟨roomId, .reading⟩] }
  | .go i fails, s => s.calls[i]?.bind fun c => s.goOn i c fails
  | .count, s => some ((s.nextCount.map (·.2)).getD s)

def init : State := ⟨∅, 0, []⟩

/-- No call for a room reads its row while another has found none and has not written
it, and no read of a row that is there fails. -/
def Alone : Action → State → Prop
  | .go i fails, s => ∀ c, s.calls[i]? = some c → c.phase = .reading →
      (fails = true → s.rows.lookup c.roomId = none) ∧ ∀ c' ∈ s.calls, c'.roomId = c.roomId → c'.creates = false
  | .call _, _ | .count, _ => True

instance : ∀ (a : Action) (s : State), Decidable (Alone a s)
  | .go i fails, s =>
    match h : s.calls[i]? with
    | none => .isTrue fun c hc => by
        rw [h] at hc
        cases hc
    | some c => decidable_of_iff (c.phase = .reading →
        (fails = true → s.rows.lookup c.roomId = none) ∧ ∀ c' ∈ s.calls, c'.roomId = c.roomId →
          c'.creates = false) (by
        constructor
        · intro hc c' hc' hphase
          rw [h, Option.some.injEq] at hc'
          subst hc'
          exact hc hphase
        · exact fun hc => hc c h)
  | .call _, _ | .count, _ => .isTrue trivial

/-! ## The representation -/

structure Valid (s : State) : Prop where
  drawn : ∀ room n, s.rows.lookup room = some n → n ≤ s.counter
  injective : ∀ room room' n, s.rows.lookup room = some n → s.rows.lookup room' = some n → room = room'
  returned : ∀ c ∈ s.calls, ∀ n, c.phase = .returned n → s.rows.lookup c.roomId = some n
  missing : ∀ c ∈ s.calls, c.creates = true → s.rows.lookup c.roomId = none
  fresh : ∀ c ∈ s.calls, ∀ n, c.phase = .writing n → n ≤ s.counter ∧ ∀ room, s.rows.lookup room ≠ some n
  /-- One call at a time creates the row of a room. -/
  alone : ∀ (i j : Nat) (c c' : Call), s.calls[i]? = some c → s.calls[j]? = some c' → c.creates = true →
    c'.creates = true → c.roomId = c'.roomId → i = j
  once : ∀ (i j : Nat) (c c' : Call) (n : Nat), s.calls[i]? = some c → s.calls[j]? = some c' →
    c.phase = .writing n → c'.phase = .writing n → i = j

variable {s s' : State} {i : Nat} {c : Call}

theorem creates_of_writing {n : Nat} (h : c.phase = .writing n) : c.creates = true := by
  unfold Call.creates
  rw [h]

/-- A call goes on without a change of the rows: what its new phase has to show. -/
theorem Valid.setPhase (h : s.Valid) (hi : s.calls[i]? = some c) {phase : Phase} {counter : Nat}
    (hcounter : s.counter ≤ counter) (hret : ∀ n, phase = .returned n → s.rows.lookup c.roomId = some n)
    (hcreates : Call.creates ⟨c.roomId, phase⟩ = true → s.rows.lookup c.roomId = none ∧
      ∀ j c', j ≠ i → s.calls[j]? = some c' → c'.creates = true → c'.roomId ≠ c.roomId)
    (hwriting : ∀ n, phase = .writing n → s.counter < n ∧ n ≤ counter) :
    Valid ({ s with counter := counter }.setPhase i c phase) := by
  have hold : ∀ c', c' ∈ s.calls.set i ⟨c.roomId, phase⟩ → c' = ⟨c.roomId, phase⟩ ∨ c' ∈ s.calls := by
    intro c' hc'
    rcases mem_set_of_some hi hc' with rfl | ⟨j, -, hj⟩
    · exact .inl rfl
    · exact .inr (List.mem_of_getElem? hj)
  -- the number of the new phase was drawn now, the others before
  have hother : ∀ (j : Nat) (c' : Call) (n : Nat), s.calls[j]? = some c' → c'.phase = .writing n →
      phase ≠ .writing n := by
    intro j c' n hj hc' hp
    have hle := (h.fresh c' (List.mem_of_getElem? hj) n hc').1
    have hlt := (hwriting n hp).1
    omega
  refine ⟨fun room n hrow => (h.drawn room n hrow).trans hcounter, h.injective, fun c' hc' n hn => ?_,
    fun c' hc' hn => ?_, fun c' hc' n hn => ?_, fun j k a b hj hk ha hb hroom => ?_,
      fun j k a b n hj hk ha hb => ?_⟩
  · rcases hold c' hc' with rfl | hmem
    · exact hret n hn
    · exact h.returned c' hmem n hn
  · rcases hold c' hc' with rfl | hmem
    · exact (hcreates hn).1
    · exact h.missing c' hmem hn
  · rcases hold c' hc' with rfl | hmem
    · refine ⟨(hwriting n hn).2, fun room hrow => ?_⟩
      have hle := h.drawn room n hrow
      have hlt := (hwriting n hn).1
      omega
    · obtain ⟨hle, hfree⟩ := h.fresh c' hmem n hn
      exact ⟨hle.trans hcounter, hfree⟩
  · refine apart_set (R := fun a b => a.creates = true ∧ b.creates = true ∧ a.roomId = b.roomId) hi
      (fun j k a b hj hk hab => h.alone j k a b hj hk hab.1 hab.2.1 hab.2.2) (fun j a hji hj => ⟨?_, ?_⟩) hj hk
      ⟨ha, hb, hroom⟩
    · rintro ⟨hnew, ha, hroom⟩
      exact (hcreates hnew).2 j a hji hj ha hroom.symm
    · rintro ⟨ha, hnew, hroom⟩
      exact (hcreates hnew).2 j a hji hj ha hroom
  · refine apart_set (R := fun a b => a.phase = .writing n ∧ b.phase = .writing n) hi
      (fun j k a b hj hk hab => h.once j k a b n hj hk hab.1 hab.2) (fun j a hji hj => ⟨?_, ?_⟩) hj hk ⟨ha, hb⟩
    · rintro ⟨hnew, ha⟩
      exact hother j a n hj ha hnew
    · rintro ⟨ha, hnew⟩
      exact hother j a n hj ha hnew

theorem Valid.write (h : s.Valid) (hi : s.calls[i]? = some c) {short : Nat} (hc : c.phase = .writing short) :
    Valid (State.setPhase { s with rows := s.rows.insert c.roomId short } i c (.returned short)) := by
  have hmem := List.mem_of_getElem? hi
  obtain ⟨hle, hfree⟩ := h.fresh c hmem short hc
  have hnone := h.missing c hmem (creates_of_writing hc)
  have hrows := AList.lookup_insert_ite s.rows c.roomId short
  -- the other calls that create are for other rooms, and hold other numbers
  have hothers : ∀ (j : Nat) (c' : Call), j ≠ i → s.calls[j]? = some c' → c'.creates = true →
      c'.roomId ≠ c.roomId := by
    intro j c' hji hj hcreates hroom
    exact hji (h.alone j i c' c hj hi hcreates (creates_of_writing hc) hroom)
  refine ⟨fun room n hrow => ?_, fun room room' n hrow hrow' => ?_, fun c' hc' n hn => ?_, fun c' hc' hn => ?_,
    fun c' hc' n hn => ?_, fun j k a b hj hk ha hb hroom => ?_, fun j k a b n hj hk ha hb => ?_⟩
  · change (s.rows.insert c.roomId short).lookup room = some n at hrow
    rw [hrows] at hrow
    split at hrow
    · cases hrow
      exact hle
    · exact h.drawn room n hrow
  · change (s.rows.insert c.roomId short).lookup room = some n at hrow
    change (s.rows.insert c.roomId short).lookup room' = some n at hrow'
    rw [hrows] at hrow hrow'
    split at hrow <;> split at hrow'
    · rename_i hr hr'
      rw [hr, hr']
    · cases hrow
      exact absurd hrow' (hfree room')
    · cases hrow'
      exact absurd hrow (hfree room)
    · exact h.injective room room' n hrow hrow'
  · show (s.rows.insert c.roomId short).lookup c'.roomId = some n
    rw [hrows]
    rcases mem_set_of_some hi hc' with rfl | ⟨j, -, hj⟩
    · cases hn
      rw [if_pos rfl]
    · have hrow := h.returned c' (List.mem_of_getElem? hj) n hn
      rw [if_neg]
      · exact hrow
      · intro hroom
        rw [hroom, hnone] at hrow
        cases hrow
  · show (s.rows.insert c.roomId short).lookup c'.roomId = none
    rw [hrows]
    rcases mem_set_of_some hi hc' with rfl | ⟨j, hji, hj⟩
    · cases hn
    · rw [if_neg (hothers j c' hji hj hn)]
      exact h.missing c' (List.mem_of_getElem? hj) hn
  · rcases mem_set_of_some hi hc' with rfl | ⟨j, hji, hj⟩
    · cases hn
    · obtain ⟨hle', hfree'⟩ := h.fresh c' (List.mem_of_getElem? hj) n hn
      refine ⟨hle', fun room hrow => ?_⟩
      change (s.rows.insert c.roomId short).lookup room = some n at hrow
      rw [hrows] at hrow
      split at hrow
      · cases hrow
        exact hji (h.once j i c' c short hj hi hn hc)
      · exact hfree' room hrow
  · refine apart_set (R := fun a b => a.creates = true ∧ b.creates = true ∧ a.roomId = b.roomId) hi
      (fun j k a b hj hk hab => h.alone j k a b hj hk hab.1 hab.2.1 hab.2.2) (fun j a hji hj => ⟨?_, ?_⟩) hj hk
      ⟨ha, hb, hroom⟩
    · rintro ⟨hnew, -⟩
      cases hnew
    · rintro ⟨-, hnew, -⟩
      cases hnew
  · refine apart_set (R := fun a b => a.phase = .writing n ∧ b.phase = .writing n) hi
      (fun j k a b hj hk hab => h.once j k a b n hj hk hab.1 hab.2) (fun j a hji hj => ⟨?_, ?_⟩) hj hk ⟨ha, hb⟩
    · rintro ⟨hnew, -⟩
      cases hnew
    · rintro ⟨-, hnew⟩
      cases hnew

theorem Valid.count (h : s.Valid) {counter : Nat} (hle : s.counter ≤ counter) :
    Valid { s with counter := counter } where
  drawn room n hrow := (h.drawn room n hrow).trans hle
  injective := h.injective
  returned := h.returned
  missing := h.missing
  fresh c hc n hn := ⟨(h.fresh c hc n hn).1.trans hle, (h.fresh c hc n hn).2⟩
  alone := h.alone
  once := h.once

theorem Valid.call (h : s.Valid) (room : RoomId) : Valid { s with calls := s.calls ++ [⟨room, .reading⟩] } := by
  have hold : ∀ c, c ∈ s.calls ++ [⟨room, .reading⟩] → c.phase ≠ .reading → c ∈ s.calls := by
    intro c hc hphase
    rcases List.mem_append.mp hc with hmem | hnew
    · exact hmem
    · rw [List.mem_singleton.mp hnew] at hphase
      exact absurd rfl hphase
  have hget : ∀ (j : Nat) (c : Call), (s.calls ++ [⟨room, .reading⟩])[j]? = some c → c.phase ≠ .reading →
      s.calls[j]? = some c := by
    intro j c hj hphase
    rw [List.getElem?_append] at hj
    split at hj
    · exact hj
    · have hnew := List.mem_singleton.mp (List.mem_of_getElem? hj)
      rw [hnew] at hphase
      exact absurd rfl hphase
  have hcreates : ∀ c : Call, c.creates = true → c.phase ≠ .reading := by
    intro c hc hphase
    unfold Call.creates at hc
    rw [hphase] at hc
    cases hc
  have hne : ∀ (c : Call) (phase : Phase), c.phase = phase → phase ≠ .reading → c.phase ≠ .reading := by
    intro c phase heq hphase
    rwa [heq]
  refine ⟨h.drawn, h.injective, fun c hc n hn => ?_, fun c hc hn => ?_, fun c hc n hn => ?_,
    fun j k a b hj hk ha hb hroom => ?_, fun j k a b n hj hk ha hb => ?_⟩
  · exact h.returned c (hold c hc (hne c _ hn (by simp))) n hn
  · exact h.missing c (hold c hc (hcreates c hn)) hn
  · exact h.fresh c (hold c hc (hne c _ hn (by simp))) n hn
  · exact h.alone j k a b (hget j a hj (hcreates a ha)) (hget k b hk (hcreates b hb)) ha hb hroom
  · exact h.once j k a b n (hget j a hj (hne a _ ha (by simp))) (hget k b hk (hne b _ hb (by simp))) ha hb

theorem nextCount_spec {n : Nat} (h : s.nextCount = some (n, s')) :
    n = s.counter + 1 ∧ s' = { s with counter := s.counter + 1 } := by
  unfold nextCount at h
  split at h
  · cases h
  · cases h
    exact ⟨rfl, rfl⟩

theorem goOn_valid {fails : Bool} (h : s.Valid) (hi : s.calls[i]? = some c) (hok : Alone (.go i fails) s)
    (hs : s.goOn i c fails = some s') : s'.Valid := by
  unfold goOn at hs
  split at hs
  · rename_i hphase
    obtain ⟨hreads, hothers⟩ := hok c hi hphase
    have hrow : (if fails = true then none else s.rows.lookup c.roomId) = s.rows.lookup c.roomId := by
      split
      · rename_i hf
        exact (hreads hf).symm
      · rfl
    rw [hrow] at hs
    split at hs
    · rename_i short hshort
      cases hs
      refine h.setPhase hi (Nat.le_refl _) (fun n hn => ?_) (fun hc => by cases hc) fun n hn => by cases hn
      cases hn
      exact hshort
    · rename_i hnone
      cases hs
      refine h.setPhase hi (Nat.le_refl _) (fun n hn => by cases hn) (fun _ => ⟨hnone, ?_⟩) fun n hn => by cases hn
      intro j c' _ hj hcreates hroom
      rw [hothers c' (List.mem_of_getElem? hj) hroom] at hcreates
      cases hcreates
  · rename_i hphase
    have hcreates : c.creates = true := by
      unfold Call.creates
      rw [hphase]
    have hnone := h.missing c (List.mem_of_getElem? hi) hcreates
    split at hs
    · rename_i short s₁ hcount
      cases hs
      obtain ⟨rfl, rfl⟩ := nextCount_spec hcount
      refine h.setPhase hi (Nat.le_succ _) (fun n hn => by cases hn) (fun _ => ⟨hnone, ?_⟩) fun n hn => ?_
      · intro j c' hji hj hc' hroom
        exact hji (h.alone j i c' c hj hi hc' hcreates hroom)
      · cases hn
        exact ⟨Nat.lt_succ_self _, Nat.le_refl _⟩
    · cases hs
      exact h.setPhase hi (Nat.le_refl _) (fun n hn => by cases hn) (fun hc => by cases hc) fun n hn => by cases hn
  · rename_i short hphase
    cases hs
    exact h.write hi hphase
  · cases hs
  · cases hs

theorem step_valid {a : Action} (h : s.Valid) (hok : Alone a s) (hs : step a s = some s') : s'.Valid := by
  cases a with
  | call roomId =>
    cases hs
    exact h.call roomId
  | go i fails =>
    obtain ⟨c, hc, hs⟩ := Option.bind_eq_some_iff.mp hs
    exact goOn_valid h hc hok hs
  | count =>
    cases hs
    cases hcount : s.nextCount with
    | none => exact h
    | some p =>
      obtain ⟨n, s'⟩ := p
      obtain ⟨-, hs'⟩ := nextCount_spec hcount
      show s'.Valid
      rw [hs']
      exact h.count (Nat.le_succ _)

theorem init_valid : init.Valid where
  drawn _ _ h := by cases h
  injective _ _ _ h := by cases h
  returned _ h := by cases h
  missing _ h := by cases h
  fresh _ h := by cases h
  alone _ _ _ _ h := by simp [init] at h
  once _ _ _ _ _ h := by simp [init] at h

/-- As long as no call for a room reads its row between another's read that found none
and its write, calls return the same id exactly when they are for the same room, and the
row is the one that was returned. -/
theorem short_rooms_agree (hrun : Reaches step Alone init s) :
    (∀ c ∈ s.calls, ∀ c' ∈ s.calls, ∀ n m, c.phase = .returned n → c'.phase = .returned m →
      (c.roomId = c'.roomId ↔ n = m)) ∧
      ∀ c ∈ s.calls, ∀ n, c.phase = .returned n → s.rows.lookup c.roomId = some n := by
  have h : s.Valid := Reaches.invariant init_valid (fun _ _ _ h hok hs => step_valid h hok hs) hrun
  refine ⟨fun c hc c' hc' n m hn hm => ?_, h.returned⟩
  have hrow := h.returned c hc n hn
  have hrow' := h.returned c' hc' m hm
  constructor
  · intro hroom
    rw [hroom, hrow', Option.some.injEq] at hrow
    exact hrow.symm
  · rintro rfl
    exact h.injective _ _ n hrow hrow'

/-- Calls for two rooms take turns, and a third finds the row of the first. -/
theorem short_rooms_agree_turns :
    ∃ s, runWhile step Alone
        [.call "!r:a", .call "!s:a", .go 0 false, .go 1 false, .count, .go 1 false, .go 0 false, .go 0 false,
          .call "!r:a", .go 2 false, .go 1 false] init = some s ∧
      s.calls = [⟨"!r:a", .returned 3⟩, ⟨"!s:a", .returned 2⟩, ⟨"!r:a", .returned 3⟩] ∧
      s.rows.lookup "!r:a" = some 3 := by
  refine exists_of_map (·.calls) (by decide) fun s hs hcalls => ⟨hcalls, ?_⟩
  refine (short_rooms_agree (Reaches.of_runWhile _ .init hs)).2 ⟨"!r:a", .returned 3⟩ ?_ 3 rfl
  rw [hcalls]
  exact List.mem_cons_self

/-- Two calls for a room that has no row both find none: they return different ids, and
the row is that of the one that wrote last. -/
theorem two_short_ids : ∃ s, Reaches step (fun _ _ => True) init s ∧
    ⟨"!r:a", .returned 1⟩ ∈ s.calls ∧ ⟨"!r:a", .returned 2⟩ ∈ s.calls ∧ s.rows.lookup "!r:a" = some 2 := by
  have hsome : (runWhile step (fun _ _ => True)
      [.call "!r:a", .call "!r:a", .go 0 false, .go 1 false, .go 0 false, .go 0 false, .go 1 false, .go 1 false]
      init).map (fun s => (s.calls, s.rows.lookup "!r:a")) =
      some ([⟨"!r:a", .returned 1⟩, ⟨"!r:a", .returned 2⟩], some 2) := by
    decide
  obtain ⟨s, hs, heq⟩ := Option.map_eq_some_iff.mp hsome
  obtain ⟨hcalls, hrow⟩ := Prod.mk.inj heq
  refine ⟨s, Reaches.of_runWhile _ .init hs, ?_, ?_, hrow⟩
  · rw [hcalls]
    exact List.mem_cons_self
  · rw [hcalls]
    exact List.mem_cons_of_mem _ List.mem_cons_self

end State

end Congruent.ShortRooms
