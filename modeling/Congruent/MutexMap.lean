import Congruent.Machine
import Mathlib.Data.Nat.Basic
import Mathlib.Logic.Function.Basic
import Mathlib.Order.Basic

/-!
# A map of mutexes (`MutexMap`)

A lock clones the mutex of its key out of the map, or puts a new one there. A guard that goes
looks whether only the map and itself have the mutex, and removes the entry of its key then;
the look and the removal are two steps.
-/

namespace Congruent

variable {K : Type} [DecidableEq K]

/-- What a lock of a key is at. -/
inductive Hold where
  | waiting
  | holding
  /-- The guard goes, and saw that nobody else has the mutex. -/
  | removing
  | releasing
  | gone
  deriving DecidableEq

/-- The mutex is locked from the moment a guard has it until the guard is gone. -/
def Hold.locks : Hold → Bool
  | .holding => true
  | .removing => true
  | .releasing => true
  | _ => false

/-- The lock counts on the map to have its mutex. -/
def Hold.live : Hold → Bool
  | .waiting => true
  | .holding => true
  | .removing => true
  | _ => false

structure Lock (K : Type) where
  key : K
  mutex : Nat
  hold : Hold

structure MutexMap (K : Type) where
  /-- The mutex that each key has in the map. -/
  map : K → Option Nat
  /-- The mutexes made so far. -/
  made : Nat
  locks : List (Lock K)

namespace MutexMap

def new : MutexMap K := ⟨fun _ => none, 0, []⟩

def setHold (s : MutexMap K) (i : Nat) (l : Lock K) (hold : Hold) : MutexMap K :=
  { s with locks := s.locks.set i { l with hold := hold } }

/-- `Arc::strong_count` of a lock's mutex: the map, where it has the mutex under the key, and
the locks that are not gone. -/
def strongCount (s : MutexMap K) (l : Lock K) : Nat :=
  (if s.map l.key = some l.mutex then 1 else 0) +
    s.locks.countP fun l' => l'.mutex = l.mutex ∧ l'.hold ≠ .gone

inductive Action (K : Type) where
  /-- `lock`, `try_lock` and `try_try_lock` clone the mutex. -/
  | lock (key : K)
  | acquire (i : Nat)
  /-- A lock that is given up, or a `try_lock` that fails. -/
  | cancel (i : Nat)
  | drop (i : Nat)
  | remove (i : Nat)
  | release (i : Nat)

def step : Action K → MutexMap K → Option (MutexMap K)
  | .lock key, s =>
    match s.map key with
    | some mutex => some { s with locks := s.locks ++ [⟨key, mutex, .waiting⟩] }
    | none =>
      some
        { map := Function.update s.map key (some s.made)
          made := s.made + 1
          locks := s.locks ++ [⟨key, s.made, .waiting⟩] }
  | .acquire i, s =>
    match s.locks[i]? with
    | some ⟨key, mutex, .waiting⟩ =>
      if s.locks.any fun l => l.mutex = mutex && l.hold.locks then none
      else some (s.setHold i ⟨key, mutex, .waiting⟩ .holding)
    | _ => none
  | .cancel i, s =>
    match s.locks[i]? with
    | some ⟨key, mutex, .waiting⟩ => some (s.setHold i ⟨key, mutex, .waiting⟩ .gone)
    | _ => none
  | .drop i, s =>
    match s.locks[i]? with
    | some ⟨key, mutex, .holding⟩ =>
      some (s.setHold i ⟨key, mutex, .holding⟩
        (if s.strongCount ⟨key, mutex, .holding⟩ ≤ 2 then .removing else .releasing))
    | _ => none
  | .remove i, s =>
    match s.locks[i]? with
    | some ⟨key, mutex, .removing⟩ =>
      some { s.setHold i ⟨key, mutex, .removing⟩ .releasing with map := Function.update s.map key none }
    | _ => none
  | .release i, s =>
    match s.locks[i]? with
    | some ⟨key, mutex, .releasing⟩ => some (s.setHold i ⟨key, mutex, .releasing⟩ .gone)
    | _ => none

def Action.index : Action K → Option Nat
  | .lock _ => none
  | .acquire i => some i
  | .cancel i => some i
  | .drop i => some i
  | .remove i => some i
  | .release i => some i

theorem getElem?_step {s s' : MutexMap K} {a : Action K} (hs : step a s = some s') {j : Nat} {l : Lock K}
    (hj : s.locks[j]? = some l) :
    ∃ l', s'.locks[j]? = some l' ∧ l'.key = l.key ∧ (a.index ≠ some j → l' = l) := by
  have hset : ∀ {i : Nat} {x : Lock K} (hold : Hold), s.locks[i]? = some x →
      ∃ l', (s.setHold i x hold).locks[j]? = some l' ∧ l'.key = l.key ∧ (some i ≠ some j → l' = l) := by
    intro i x hold hi
    rw [setHold, getElem?_set_of_some hi]
    by_cases hij : j = i
    · subst hij
      cases hi.symm.trans hj
      exact ⟨_, if_pos rfl, rfl, fun hne => absurd rfl hne⟩
    · exact ⟨l, by rw [if_neg hij, hj], rfl, fun _ => rfl⟩
  cases a with
  | lock key =>
    have happend : ∀ x : Lock K, (s.locks ++ [x])[j]? = some l := fun x => by
      rw [List.getElem?_append_left (List.getElem?_eq_some_iff.mp hj).1, hj]
    simp only [step] at hs
    split at hs
    · cases hs
      exact ⟨l, happend _, rfl, fun _ => rfl⟩
    · cases hs
      exact ⟨l, happend _, rfl, fun _ => rfl⟩
  | acquire i =>
    simp only [step] at hs
    split at hs
    · rename_i hi
      split at hs
      · cases hs
      · cases hs
        exact hset _ hi
    · cases hs
  | cancel i | drop i | remove i | release i =>
    simp only [step] at hs
    split at hs
    · rename_i hi
      cases hs
      exact hset _ hi
    · cases hs

theorem hold_of_acquire {s s' : MutexMap K} {i : Nat} (hs : step (.acquire i) s = some s') :
    ∃ l, s'.locks[i]? = some l ∧ l.hold = .holding := by
  simp only [step] at hs
  split at hs
  · rename_i hi
    split at hs
    · cases hs
    · cases hs
      exact ⟨_, (getElem?_set_of_some hi _ i).trans (if_pos rfl), rfl⟩
  · cases hs

theorem last_of_lock {s s' : MutexMap K} {key : K} (hs : step (.lock key) s = some s') :
    ∃ l, s'.locks[s.locks.length]? = some l ∧ l.key = key := by
  simp only [step] at hs
  split at hs
  · cases hs
    exact ⟨_, List.getElem?_concat_length, rfl⟩
  · cases hs
    exact ⟨_, List.getElem?_concat_length, rfl⟩

/-! ## Exclusion -/

def apart : Action K → MutexMap K → Bool
  | .lock key, s => s.locks.all fun l => l.key ≠ key || l.hold ≠ .removing
  | _, _ => true

structure Inv (s : MutexMap K) : Prop where
  made : ∀ l ∈ s.locks, l.mutex < s.made
  map_made : ∀ k m, s.map k = some m → m < s.made
  live : ∀ l ∈ s.locks, l.hold.live = true → s.map l.key = some l.mutex
  sole : ∀ (i j : Nat) (a b : Lock K), s.locks[i]? = some a → s.locks[j]? = some b →
    (a.mutex = b.mutex ∧ a.hold.locks = true ∧ b.hold.locks = true) → i = j
  removing : ∀ (i j : Nat) (a b : Lock K), s.locks[i]? = some a → s.locks[j]? = some b → a.hold = .removing →
    b.hold.live = true → a.key = b.key → i = j

omit [DecidableEq K] in
theorem inv_new : Inv (new : MutexMap K) where
  made l hl := absurd hl List.not_mem_nil
  map_made k m h := by cases h
  live l hl := absurd hl List.not_mem_nil
  sole i j a b hi := by cases hi
  removing i j a b hi := by cases hi

section
variable {s s' : MutexMap K} {a : Action K} {i : Nat} {l : Lock K}

omit [DecidableEq K] in
theorem Inv.setHold (h : Inv s) (hi : s.locks[i]? = some l) {hold : Hold}
    (hlive : hold.live = true → l.hold.live = true)
    (hsole : hold.locks = true → l.hold.locks = true ∨ ∀ l' ∈ s.locks, l'.mutex = l.mutex → l'.hold.locks = false)
    (hremoving : hold = .removing → ∀ (j : Nat) (b : Lock K), s.locks[j]? = some b → b.hold.live = true →
      l.key = b.key → i = j) : Inv (s.setHold i l hold) := by
  have hmem := List.mem_of_getElem? hi
  refine ⟨fun l' hl' => ?_, h.map_made, fun l' hl' hlive' => ?_, fun j k a b hj hk hab => ?_,
    fun j k a b hj hk ha hb hkey => ?_⟩
  · rcases mem_set_of_some hi hl' with rfl | ⟨j, -, hj⟩
    · exact h.made l hmem
    · exact h.made l' (List.mem_of_getElem? hj)
  · rcases mem_set_of_some hi hl' with rfl | ⟨j, -, hj⟩
    · exact h.live l hmem (hlive hlive')
    · exact h.live l' (List.mem_of_getElem? hj) hlive'
  · refine apart_set hi (R := fun a b => a.mutex = b.mutex ∧ a.hold.locks = true ∧ b.hold.locks = true) h.sole
      (fun m c hm hc => ?_) hj hk hab
    have hno : hold.locks = true → c.mutex = l.mutex → c.hold.locks = true → False := by
      intro hlocks hcl hc'
      rcases hsole hlocks with hl | hall
      · exact hm (h.sole m i c l hc hi ⟨hcl, hc', hl⟩)
      · rw [hall c (List.mem_of_getElem? hc) hcl] at hc'
        cases hc'
    exact ⟨fun ⟨hm, hl, hc⟩ => hno hl hm.symm hc, fun ⟨hm, hc, hl⟩ => hno hl hm hc⟩
  · rw [MutexMap.setHold, getElem?_set_of_some hi] at hj hk
    split at hj
    · rename_i hji
      cases hj
      split at hk
      · rename_i hki
        rw [hji, hki]
      · rw [hji]
        exact hremoving ha k b hk hb hkey
    · split at hk
      · rename_i hki
        cases hk
        rw [hki]
        exact h.removing j i a l hj hi ha (hlive hb) hkey
      · exact h.removing j k a b hj hk ha hb hkey

theorem Inv.lock (h : Inv s) {key : K} (hok : apart (.lock key) s = true) {map : K → Option Nat} {made mutex : Nat}
    (hmade : s.made ≤ made) (hmap : ∀ k m, map k = some m → m < made) (hkey : map key = some mutex)
    (hkept : ∀ k m, s.map k = some m → map k = some m) :
    Inv ⟨map, made, s.locks ++ [⟨key, mutex, .waiting⟩]⟩ := by
  refine ⟨fun l hl => ?_, hmap, fun l hl hlive => ?_, fun i j a b hi hj hab => ?_,
    fun i j a b hi hj ha hb heq => ?_⟩
  · rcases List.mem_append.mp hl with hl | hl
    · exact (h.made l hl).trans_le hmade
    · rw [List.mem_singleton.mp hl]
      exact hmap key mutex hkey
  · rcases List.mem_append.mp hl with hl | hl
    · exact hkept _ _ (h.live l hl hlive)
    · rw [List.mem_singleton.mp hl]
      exact hkey
  · obtain ⟨hmutex, ha, hb⟩ := hab
    rcases getElem?_concat hi with hi | ⟨-, rfl⟩
    · rcases getElem?_concat hj with hj | ⟨-, rfl⟩
      · exact h.sole i j a b hi hj ⟨hmutex, ha, hb⟩
      · cases hb
    · cases ha
  · rcases getElem?_concat hi with hi | ⟨-, rfl⟩
    · rcases getElem?_concat hj with hj | ⟨-, rfl⟩
      · exact h.removing i j a b hi hj ha hb heq
      · have hother := List.all_eq_true.mp hok a (List.mem_of_getElem? hi)
        simp only [heq, ha, ne_eq, not_true, decide_false, Bool.or_self, Bool.false_eq_true] at hother
    · cases ha

theorem Inv.step (h : Inv s) (hok : apart a s = true) (hs : MutexMap.step a s = some s') : Inv s' := by
  cases a with
  | lock key =>
    simp only [MutexMap.step] at hs
    split at hs
    · rename_i mutex hkey
      cases hs
      exact h.lock hok (Nat.le_refl _) h.map_made hkey fun _ _ hm => hm
    · rename_i hkey
      cases hs
      refine h.lock hok (Nat.le_succ _) (fun k m hm => ?_) (Function.update_self ..) fun k m hm => ?_
      · by_cases hk : k = key
        · subst hk
          rw [Function.update_self] at hm
          cases hm
          exact Nat.lt_succ_self _
        · rw [Function.update_of_ne hk] at hm
          exact (h.map_made k m hm).trans (Nat.lt_succ_self _)
      · have hk : k ≠ key := by
          rintro rfl
          rw [hkey] at hm
          cases hm
        rw [Function.update_of_ne hk, hm]
  | acquire i =>
    simp only [MutexMap.step] at hs
    split at hs
    · rename_i key mutex hi
      split at hs
      · cases hs
      · rename_i hfree
        cases hs
        refine h.setHold hi (fun _ => rfl) (fun _ => .inr fun l' hl' hm => ?_) (fun hrem => by cases hrem)
        simp only [List.any_eq_true, Bool.and_eq_true, decide_eq_true_eq, not_exists, not_and] at hfree
        exact Bool.eq_false_iff.mpr (hfree l' hl' hm)
    · cases hs
  | cancel i =>
    simp only [MutexMap.step] at hs
    split at hs
    · rename_i key mutex hi
      cases hs
      exact h.setHold hi (fun hlive => by cases hlive) (fun hlocks => by cases hlocks) fun hrem => by cases hrem
    · cases hs
  | drop i =>
    simp only [MutexMap.step] at hs
    split at hs
    · rename_i key mutex hi
      cases hs
      split
      · rename_i hcount
        refine h.setHold hi (fun _ => rfl) (fun _ => .inl rfl) fun _ j b hj hb hkey => ?_
        -- a live lock of the key has the same mutex, and counts as well
        by_contra hne
        have hmap := h.live _ (List.mem_of_getElem? hi) rfl
        have hmutex : b.mutex = mutex := by
          have hmap' := h.live b (List.mem_of_getElem? hj) hb
          rw [← hkey, hmap] at hmap'
          exact (Option.some.inj hmap').symm
        have htwo := two_le_countP (p := fun l' => l'.mutex = mutex ∧ l'.hold ≠ .gone) hi hj hne (by simp) (by
          refine decide_eq_true ⟨hmutex, fun hgone => ?_⟩
          rw [hgone] at hb
          cases hb)
        rw [strongCount, if_pos hmap] at hcount
        exact absurd (Nat.le_trans (Nat.add_le_add_left htwo 1) hcount) (by decide)
      · exact h.setHold hi (fun hlive => by cases hlive) (fun _ => .inl rfl) fun hrem => by cases hrem
    · cases hs
  | remove i =>
    simp only [MutexMap.step] at hs
    split at hs
    · rename_i key mutex hi
      cases hs
      have hset : Inv (s.setHold i ⟨key, mutex, .removing⟩ .releasing) :=
        h.setHold hi (fun hlive => by cases hlive) (fun _ => .inl rfl) fun hrem => by cases hrem
      refine ⟨hset.made, fun k m hm => ?_, fun l hl hlive => ?_, hset.sole, hset.removing⟩
      · have hm : Function.update s.map key none k = some m := hm
        by_cases hk : k = key
        · rw [hk, Function.update_self] at hm
          cases hm
        · rw [Function.update_of_ne hk] at hm
          exact h.map_made k m hm
      · -- no other live lock has the key
        have hk : l.key ≠ key := by
          rintro hkey
          rcases mem_set_of_some hi hl with rfl | ⟨j, hne, hj⟩
          · cases hlive
          · exact hne (h.removing i j _ l hi hj rfl hlive hkey.symm).symm
        exact (Function.update_of_ne hk ..).trans (hset.live l hl hlive)
    · cases hs
  | release i =>
    simp only [MutexMap.step] at hs
    split at hs
    · rename_i key mutex hi
      cases hs
      exact h.setHold hi (fun hlive => by cases hlive) (fun hlocks => by cases hlocks) fun hrem => by cases hrem
    · cases hs

omit [DecidableEq K] in
theorem Inv.exclusive (h : Inv s) {i j : Nat} {a b : Lock K} (hi : s.locks[i]? = some a) (hj : s.locks[j]? = some b)
    (ha : a.hold = .holding) (hb : b.hold = .holding) (hkey : a.key = b.key) : i = j := by
  have hmap := h.live a (List.mem_of_getElem? hi) (by rw [ha]; rfl)
  have hmap' := h.live b (List.mem_of_getElem? hj) (by rw [hb]; rfl)
  rw [hkey, hmap'] at hmap
  exact h.sole i j a b hi hj ⟨(Option.some.inj hmap).symm, by rw [ha]; rfl, by rw [hb]; rfl⟩

/-- No two guards of one key, as long as no lock comes between the look and the removal. -/
theorem one_guard_per_key (h : Reaches MutexMap.step (fun a s => apart a s = true) new s) {i j : Nat} {a b : Lock K}
    (hi : s.locks[i]? = some a) (hj : s.locks[j]? = some b) (ha : a.hold = .holding) (hb : b.hold = .holding)
    (hkey : a.key = b.key) : i = j := by
  have hinv : Inv s := h.invariant inv_new fun _ _ _ hinv hok hs => hinv.step hok hs
  exact hinv.exclusive hi hj ha hb hkey

end

/-- Two guards one after the other, and a lock given up meanwhile. -/
theorem one_guard_per_key_handover : ∃ s,
    runWhile step (fun a s => apart a s = true)
      [.lock "k", .lock "k", .lock "k", .acquire 0, .cancel 2, .drop 0, .release 0, .acquire 1] new = some s ∧
    ∀ i l, s.locks[i]? = some l → l.key = "k" → l.hold = .holding → i = 1 := by
  refine exists_of_map (fun s => (s.locks[1]?).any fun l => decide (l.key = "k" ∧ l.hold = .holding))
    (v := true) (by decide) fun s hs heq i l hi hkey hhold => ?_
  cases hj : s.locks[1]? with
  | none => simp [hj] at heq
  | some b =>
    simp only [hj, Option.any_some, decide_eq_true_eq] at heq
    exact one_guard_per_key (.of_runWhile _ .init hs) hi hj hhold heq.2 (hkey.trans heq.1.symm)

-- a lock that comes between the look and the removal waits for a mutex that the map no longer has
example : (runWhile step (fun _ _ => True)
    [.lock "k", .acquire 0, .drop 0, .lock "k", .remove 0, .release 0, .acquire 1, .lock "k", .acquire 2] new).map
    (fun s => s.locks.map fun l => (l.mutex, l.hold)) = some [(0, .gone), (0, .holding), (1, .holding)] := by
  decide

/-! ## Parties -/

/-- How parties use a map: the lock that each has, with its key, and whether it counts on
holding it. -/
structure Use (K P : Type) where
  ref : P → Option (Nat × K)
  critical : P → Bool

/-- Each party has a lock of its own, of its key, and holds it where it counts on it. -/
structure Held {P : Type} (u : Use K P) (s : MutexMap K) (parties : List P) : Prop where
  locks : s.Inv
  ref : ∀ p ∈ parties, ∀ i key, u.ref p = some (i, key) →
    ∃ l, s.locks[i]? = some l ∧ l.key = key ∧ (u.critical p = true → l.hold = .holding)
  critical : ∀ p ∈ parties, u.critical p = true → (u.ref p).isSome
  own : ∀ (j k : Nat) (p q : P), parties[j]? = some p → parties[k]? = some q →
    (∃ i key key', u.ref p = some (i, key) ∧ u.ref q = some (i, key')) → j = k

section
variable {P : Type} {u : Use K P} {s s' : MutexMap K} {parties : List P} {p p' : P} {k i : Nat} {key : K}

omit [DecidableEq K] in
theorem held_new : Held u (new : MutexMap K) [] where
  locks := inv_new
  ref p hp := absurd hp List.not_mem_nil
  critical p hp := absurd hp List.not_mem_nil
  own j k p q h := by cases h

omit [DecidableEq K] in
theorem Held.exclusive (h : Held u s parties) {j : Nat} {q : P} {i' : Nat} (hk : parties[k]? = some p)
    (hj : parties[j]? = some q) (hp : u.critical p = true) (hq : u.critical q = true)
    (hpref : u.ref p = some (i, key)) (hqref : u.ref q = some (i', key)) : k = j := by
  obtain ⟨l, hl, hkey, hhold⟩ := h.ref p (List.mem_of_getElem? hk) i key hpref
  obtain ⟨l', hl', hkey', hhold'⟩ := h.ref q (List.mem_of_getElem? hj) i' key hqref
  obtain rfl := h.locks.exclusive hl hl' (hhold hp) (hhold' hq) (hkey.trans hkey'.symm)
  exact h.own k j p q hk hj ⟨i, key, key, hpref, hqref⟩

omit [DecidableEq K] in
theorem Held.add (h : Held u s parties) (hp : u.ref p = none) (hcrit : u.critical p = false) :
    Held u s (parties ++ [p]) where
  locks := h.locks
  ref q hq i key hi := by
    rcases List.mem_append.mp hq with hq | hq
    · exact h.ref q hq i key hi
    · rw [List.mem_singleton.mp hq, hp] at hi
      cases hi
  critical q hq hc := by
    rcases List.mem_append.mp hq with hq | hq
    · exact h.critical q hq hc
    · rw [List.mem_singleton.mp hq, hcrit] at hc
      cases hc
  own j k a b hj hk hab := by
    obtain ⟨i, key, key', ha, hb⟩ := hab
    rcases getElem?_concat hj with hj | ⟨-, rfl⟩
    · rcases getElem?_concat hk with hk | ⟨-, rfl⟩
      · exact h.own j k a b hj hk ⟨i, key, key', ha, hb⟩
      · cases hp.symm.trans hb
    · cases hp.symm.trans ha

omit [DecidableEq K] in
theorem Held.go (h : Held u s parties) (hk : parties[k]? = some p) (hinv : s'.Inv)
    (hframe : ∀ j l, s.locks[j]? = some l → ∃ l', s'.locks[j]? = some l' ∧ l'.key = l.key ∧
      ((∀ key, u.ref p ≠ some (j, key)) → l' = l))
    (href : ∀ i key, u.ref p' = some (i, key) → ((∃ key', u.ref p = some (i, key')) ∨ i = s.locks.length) ∧
      ∃ l, s'.locks[i]? = some l ∧ l.key = key ∧ (u.critical p' = true → l.hold = .holding))
    (hcrit : u.critical p' = true → (u.ref p').isSome) : Held u s' (parties.set k p') where
  locks := hinv
  ref q hq i key hi := by
    rcases mem_set_of_some hk hq with rfl | ⟨j, hne, hj⟩
    · exact (href i key hi).2
    · obtain ⟨l, hl, hkey, hhold⟩ := h.ref q (List.mem_of_getElem? hj) i key hi
      obtain ⟨l', hl', hkey', hsame⟩ := hframe i l hl
      refine ⟨l', hl', hkey'.trans hkey, fun hc => ?_⟩
      rw [hsame fun key' hp => hne (h.own j k q p hj hk ⟨i, key, key', hi, hp⟩)]
      exact hhold hc
  critical q hq hc := by
    rcases mem_set_of_some hk hq with rfl | ⟨j, -, hj⟩
    · exact hcrit hc
    · exact h.critical q (List.mem_of_getElem? hj) hc
  own j m a b hj hm hab := by
    refine apart_set hk (R := fun a b => ∃ i key key', u.ref a = some (i, key) ∧ u.ref b = some (i, key')) h.own
      (fun n q hn hq => ?_) hj hm hab
    have hno : ∀ {i key key'}, u.ref p' = some (i, key) → u.ref q = some (i, key') → False := by
      intro i key key' hi hqi
      rcases (href i key hi).1 with ⟨key'', hpi⟩ | rfl
      · exact hn (h.own n k q p hq hk ⟨i, key', key'', hqi, hpi⟩)
      · obtain ⟨l, hl, -⟩ := h.ref q (List.mem_of_getElem? hq) _ _ hqi
        exact absurd (List.getElem?_eq_some_iff.mp hl).1 (Nat.lt_irrefl _)
    exact ⟨fun ⟨i, key, key', hi, hq⟩ => hno hi hq, fun ⟨i, key, key', hq, hi⟩ => hno hi hq⟩

omit [DecidableEq K] in
theorem Held.goOn (h : Held u s parties) (hk : parties[k]? = some p) (href : u.ref p' = u.ref p ∨ u.ref p' = none)
    (hcrit : u.critical p' = true → u.critical p = true ∧ u.ref p' = u.ref p) : Held u s (parties.set k p') := by
  have hmem := List.mem_of_getElem? hk
  refine h.go hk h.locks (fun j l hl => ⟨l, hl, rfl, fun _ => rfl⟩) (fun i key hi => ?_) fun hc => ?_
  · have hp := (href.resolve_right (by rw [hi]; exact Option.some_ne_none _)).symm.trans hi
    obtain ⟨l, hl, hkey, hhold⟩ := h.ref p hmem i key hp
    exact ⟨.inl ⟨key, hp⟩, l, hl, hkey, fun hc => hhold (hcrit hc).1⟩
  · obtain ⟨hc, heq⟩ := hcrit hc
    rw [heq]
    exact h.critical p hmem hc

theorem Held.lock (h : Held u s parties) (hk : parties[k]? = some p) (hok : apart (.lock key) s = true)
    (hs : step (.lock key) s = some s') (href : u.ref p' = some (s.locks.length, key))
    (hcrit : u.critical p' = false) : Held u s' (parties.set k p') := by
  refine h.go hk (h.locks.step hok hs) (fun j l hl => ?_) (fun i key' hi => ?_) fun hc => ?_
  · obtain ⟨l', hl', hkey, hsame⟩ := getElem?_step hs hl
    exact ⟨l', hl', hkey, fun _ => hsame (by simp [Action.index])⟩
  · cases href.symm.trans hi
    obtain ⟨l, hl, hkey⟩ := last_of_lock hs
    exact ⟨.inr rfl, l, hl, hkey, fun hc => absurd (hcrit.symm.trans hc) Bool.false_ne_true⟩
  · exact absurd (hcrit.symm.trans hc) Bool.false_ne_true

theorem Held.move (h : Held u s parties) (hk : parties[k]? = some p) (hp : u.ref p = some (i, key)) {a : Action K}
    (ha : a.index = some i) (hs : step a s = some s') (href : u.ref p' = u.ref p ∨ u.ref p' = none)
    (hcrit : u.critical p' = true → a = .acquire i ∧ u.ref p' = u.ref p) : Held u s' (parties.set k p') := by
  have hok : apart a s = true := by
    cases a with
    | lock key => cases ha
    | _ => rfl
  refine h.go hk (h.locks.step hok hs) (fun j l hl => ?_) (fun j key' hj => ?_) fun hc => ?_
  · obtain ⟨l', hl', hkey, hsame⟩ := getElem?_step hs hl
    refine ⟨l', hl', hkey, fun hne => hsame fun heq => hne key ?_⟩
    rw [hp, Option.some.inj (ha.symm.trans heq)]
  · have hsame := href.resolve_right (by rw [hj]; exact Option.some_ne_none _)
    cases hp.symm.trans (hsame.symm.trans hj)
    obtain ⟨l, hl, hkey, -⟩ := h.ref p (List.mem_of_getElem? hk) i key hp
    obtain ⟨l', hl', hkey', -⟩ := getElem?_step hs hl
    refine ⟨.inl ⟨key, hp⟩, l', hl', hkey'.trans hkey, fun hc => ?_⟩
    obtain ⟨rfl, -⟩ := hcrit hc
    obtain ⟨l'', hl'', hhold⟩ := hold_of_acquire hs
    cases hl'.symm.trans hl''
    exact hhold
  · rw [(hcrit hc).2, hp]
    rfl

end

end MutexMap

end Congruent
