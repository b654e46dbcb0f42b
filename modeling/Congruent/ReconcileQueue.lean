import Mathlib.Algebra.Ring.Nat
import Mathlib.Data.List.Perm.Basic
import Congruent.KeyedMap
import Congruent.Machine

/-!
# The reconciliation queue

The coalescing queue of pairs of a room and a peer (`reconcile/queue.rs`). Its map
has no order of its own: entries may be found in any order at any call.
-/

namespace Congruent.Reconcile

/-- Nanoseconds on the monotonic clock. -/
abbrev Instant := Nat

abbrev Duration := Nat

namespace Duration

def max : Duration := 18446744073709551615 * 1000000000 + 999999999

def saturatingMul (d : Duration) (n : Nat) : Duration := min (d * n) max

def fromSecs (n : Nat) : Duration := n * 1000000000

end Duration

def Instant.checkedAdd (t : Instant) (d : Duration) : Option Instant :=
  if t + d ≤ 9223372036854775807 * 1000000000 + 999999999 then some (t + d) else none

namespace U32

def max : Nat := 4294967295

def saturatingAdd (a b : Nat) : Nat := min (a + b) max

/-- `1_u32.checked_shl(n).unwrap_or(u32::MAX)`. -/
def shiftedOne (n : Nat) : Nat := if n < 32 then 2 ^ n else max

end U32

inductive Reason where
  | explicit
  | periodic
  | activity
  | incomingGap
  | continuation
  | reconnect
  deriving DecidableEq

inductive Refusal where
  | queueFull
  | backingOff
  deriving DecidableEq

inductive Enqueued where
  | queued
  | coalesced
  | refused (r : Refusal)
  deriving DecidableEq

inductive Verdict where
  | done
  | continuation
  | synchronized
  | failed
  | unsupported
  | dropped
  deriving DecidableEq

structure Key where
  roomId : String
  peer : String
  deriving DecidableEq

structure Entry where
  queued : Bool := false
  inFlight : Bool := false
  reason : Reason := .periodic
  /-- A trigger arrived during the running exchange. -/
  dirty : Bool := false
  failures : Nat := 0
  notBefore : Option Instant := none
  /-- The last exchange failed and nothing has retried it since. -/
  retryPending : Bool := false
  identicalDigests : Nat := 0
  synchronizedUntil : Option Instant := none
  deriving DecidableEq

structure Queue where
  entries : AList fun _ : Key => Entry
  ready : List Key
  maxTracked : Nat
  failureBackoff : Duration
  failureBackoffMax : Duration

def backoffBase : Duration := Duration.fromSecs 5
def backoffMax : Duration := Duration.fromSecs (15 * 60)
def unsupportedBackoff : Duration := Duration.fromSecs (6 * 3600)
def identicalDigestsBeforeBackoff : Nat := 3
def identicalDigestBackoffBase : Duration := Duration.fromSecs 60
def identicalDigestBackoffMax : Duration := Duration.fromSecs (24 * 3600)

/-- Exponential backoff after some consecutive failures. -/
def backoff (base limit : Duration) (failures : Nat) : Duration :=
  min (Duration.saturatingMul base (U32.shiftedOne (failures - 1))) (max limit base)

def waitsFor (time : Option Instant) (now : Instant) : Bool := time.any fun t => now < t

namespace Entry

def waiting (e : Entry) (now : Instant) : Bool := waitsFor e.notBefore now || waitsFor e.synchronizedUntil now

/-- Activity invalidates equal-digest observations. -/
def noticed (e : Entry) (reason : Reason) : Entry :=
  if reason ≠ .periodic then { e with identicalDigests := 0, synchronizedUntil := none } else e

def overridden (e : Entry) (reason : Reason) : Entry :=
  if reason = .explicit then { e with notBefore := none, synchronizedUntil := none } else e

def ended (e : Entry) (failureBackoff failureBackoffMax : Duration) (verdict : Verdict) (now : Instant) : Entry :=
  let e := { e with inFlight := false }
  match verdict with
  | .done | .continuation =>
    { e with failures := 0, notBefore := none, identicalDigests := 0, synchronizedUntil := none }
  | .synchronized =>
    if e.dirty then { e with failures := 0, notBefore := none, identicalDigests := 0, synchronizedUntil := none }
    else
      let digests := U32.saturatingAdd e.identicalDigests 1
      { e with
        failures := 0
        notBefore := none
        identicalDigests := digests
        synchronizedUntil :=
          if identicalDigestsBeforeBackoff ≤ digests then
            Instant.checkedAdd now (min (Duration.saturatingMul identicalDigestBackoffBase
              (U32.shiftedOne (digests - identicalDigestsBeforeBackoff))) identicalDigestBackoffMax)
          else e.synchronizedUntil }
  | .failed =>
    let failures := U32.saturatingAdd e.failures 1
    { e with
      retryPending := true
      failures := failures
      notBefore := Instant.checkedAdd now (backoff failureBackoff failureBackoffMax failures)
      identicalDigests := 0
      synchronizedUntil := none }
  | .unsupported =>
    { e with
      failures := U32.saturatingAdd e.failures 1
      notBefore := Instant.checkedAdd now unsupportedBackoff
      identicalDigests := 0
      synchronizedUntil := none }
  | .dropped => e

end Entry

/-- The better of two elements: the one with the lesser key, a key that is not set being
less than any. -/
def lesser {α : Type} (key : α → Option Instant) (best : Option α) (x : α) : Option α :=
  match best with
  | none => some x
  | some b =>
    match key x, key b with
    | none, some _ => some x
    | some t, some t' => if t < t' then some x else some b
    | _, none => some b

def firstMin {α : Type} (key : α → Option Instant) (xs : List α) : Option α := xs.foldl (lesser key) none

namespace Queue

def new (maxTracked : Nat) : Queue := ⟨∅, [], maxTracked, backoffBase, backoffMax⟩

def withFailureBackoff (q : Queue) (base max : Duration) : Queue :=
  { q with failureBackoff := base, failureBackoffMax := max }

def coolingDown (q : Queue) (key : Key) (now : Instant) : Bool :=
  (q.entries.lookup key).any fun e => e.waiting now

def resetSynchronizedForRoom (q : Queue) (room : String) : Queue :=
  { q with
    entries := q.entries.mapValues fun key e =>
      if key.roomId = room then { e with identicalDigests := 0, synchronizedUntil := none } else e }

def peerReachable (q : Queue) (key : Key) : Queue :=
  { q with entries := q.entries.adjust key fun e => { e with failures := 0, notBefore := none } }

/-! ## Eviction -/

/-- Pairs whose cooldowns have been served. -/
def served (now : Instant) (e : Entry) : Bool :=
  !e.queued && !e.inFlight && !e.retryPending && !waitsFor e.notBefore now && !waitsFor e.synchronizedUntil now

def idleFailed (e : Entry) : Bool := !e.queued && !e.inFlight && e.retryPending

def victim (q : Queue) (now : Instant) : Option Key :=
  ((firstMin (·.2.notBefore) (q.entries.entries.filter fun x => served now x.2)).or
    (firstMin (·.2.notBefore) (q.entries.entries.filter fun x => idleFailed x.2))).map (·.1)

/-- Drops an idle pair to make room for a new one; whether there was one. -/
def evictIdle (q : Queue) (now : Instant) : Bool × Queue :=
  match q.victim now with
  | some key => ((q.entries.lookup key).isSome, { q with entries := q.entries.erase key })
  | none => (false, q)

/-! ## The operations -/

def enqueueTracked (q : Queue) (key : Key) (e : Entry) (reason : Reason) (now : Instant) : Enqueued × Queue :=
  let noticed := e.noticed reason
  if e.inFlight then
    (.coalesced, { q with
      entries := q.entries.adjust key fun _ =>
        if reason ≠ .periodic then { noticed with dirty := true, reason := reason } else noticed })
  else if e.queued then
    (.coalesced, { q with
      entries := q.entries.adjust key fun _ =>
        if reason ≠ .periodic then { noticed with reason := reason } else noticed })
  else if reason ≠ .explicit && noticed.waiting now then
    (.refused .backingOff, { q with entries := q.entries.adjust key fun _ => noticed })
  else
    (.queued, { q with
      entries := q.entries.adjust key fun _ => { noticed.overridden reason with queued := true, reason := reason }
      ready := q.ready ++ [key] })

def track (q : Queue) (key : Key) (reason : Reason) : Queue :=
  { q with entries := q.entries.insert key { queued := true, reason := reason }, ready := q.ready ++ [key] }

def enqueue (q : Queue) (key : Key) (reason : Reason) (now : Instant) : Enqueued × Queue :=
  match q.entries.lookup key with
  | some e => q.enqueueTracked key e reason now
  | none =>
    if q.maxTracked ≤ q.entries.entries.length then
      match q.evictIdle now with
      | (true, q') => (.queued, q'.track key reason)
      | (false, q') => (.refused .queueFull, q')
    else (.queued, q.track key reason)

/-- A failed pair whose delay has been served. -/
def due (now : Instant) (e : Entry) : Bool :=
  e.retryPending && !e.queued && !e.inFlight && !waitsFor e.notBefore now

def requeueDueRetries (q : Queue) (now : Instant) : Bool × Queue :=
  let keys := (q.entries.entries.filter fun x => due now x.2).map (·.1)
  (!keys.isEmpty, { q with
    entries := q.entries.mapValues fun _ e =>
      if due now e then { e with retryPending := false, queued := true, reason := .periodic } else e
    ready := q.ready ++ keys })

def running (q : Queue) : Nat := q.entries.count fun _ e => e.inFlight

def peerRunning (q : Queue) (peer : String) : Nat := q.entries.count fun k e => e.inFlight && k.peer = peer

def eligible (q : Queue) (now : Instant) (maxPerPeer : Nat) (periodicAllowed priority : Bool) (key : Key) : Bool :=
  match q.entries.lookup key with
  | none => false
  | some e =>
    (decide (e.reason ≠ .periodic) == priority) && (priority || periodicAllowed) &&
      decide (q.peerRunning key.peer < maxPerPeer) && !e.waiting now

def taken (e : Entry) : Entry :=
  { e with queued := false, retryPending := false, inFlight := true, dirty := false, reason := .periodic }

def nextReady (q : Queue) (now : Instant) (maxConcurrent maxPerPeer : Nat) (periodicAllowed : Bool) :
    Option (Key × Reason) × Queue :=
  if maxConcurrent ≤ q.running then (none, q)
  else
    match [true, false].findSome? fun priority =>
      q.ready.findIdx? (q.eligible now maxPerPeer periodicAllowed priority) with
    | none => (none, q)
    | some index =>
      match q.ready[index]? with
      | none => (none, q)
      | some key =>
        let q := { q with ready := q.ready.eraseIdx index }
        match q.entries.lookup key with
        | none => (none, q)
        | some e => (some (key, e.reason), { q with entries := q.entries.adjust key taken })

/-- Another pass of a pair that just ended. -/
def pushBack (q : Queue) (key : Key) (e : Entry) : Queue :=
  { q with
    entries := q.entries.adjust key fun _ => { e with dirty := false, queued := true }
    ready := q.ready ++ [key] }

def finish (q : Queue) (key : Key) (verdict : Verdict) (now : Instant) : Bool × Queue :=
  if verdict = .dropped then (false, { q with entries := q.entries.erase key })
  else
    match q.entries.lookup key with
    | none => (false, q)
    | some e =>
      let e := e.ended q.failureBackoff q.failureBackoffMax verdict now
      if verdict = .continuation then (true, q.pushBack key { e with reason := .continuation })
      else if e.dirty then (true, q.pushBack key (e.overridden e.reason))
      else if e.failures = 0 ∧ e.identicalDigests = 0 then (false, { q with entries := q.entries.erase key })
      else (false, { q with entries := q.entries.adjust key fun _ => e })

/-! ## Runs -/

/-- A call, or a change of the order in which the map is gone through. -/
inductive Action where
  | enqueue (key : Key) (reason : Reason) (now : Instant)
  | nextReady (now : Instant) (periodicAllowed : Bool)
  | finish (key : Key) (verdict : Verdict) (now : Instant)
  | requeueDueRetries (now : Instant)
  | peerReachable (key : Key)
  | resetSynchronizedForRoom (room : String)
  | rehash (entries : AList fun _ : Key => Entry)

/-- The configuration: what the worker passes to `next_ready`, and the pairs tracked. -/
structure Limits where
  maxConcurrent : Nat
  maxPerPeer : Nat
  maxTracked : Nat

def step (limits : Limits) : Action → Queue → Option Queue
  | .enqueue key reason now, q => some (q.enqueue key reason now).2
  | .nextReady now periodicAllowed, q =>
    some (q.nextReady now limits.maxConcurrent limits.maxPerPeer periodicAllowed).2
  | .finish key verdict now, q => some (q.finish key verdict now).2
  | .requeueDueRetries now, q => some (q.requeueDueRetries now).2
  | .peerReachable key, q => some (q.peerReachable key)
  | .resetSynchronizedForRoom room, q => some (q.resetSynchronizedForRoom room)
  | .rehash entries, q => if entries.entries.Perm q.entries.entries then some { q with
      entries := entries } else none

/-- Only exchanges that are running end. -/
def Ends : Action → Queue → Prop
  | .finish key _ _, q => (q.entries.lookup key).any (·.inFlight) = true
  | _, _ => True

instance : ∀ (a : Action) (q : Queue), Decidable (Ends a q)
  | .finish key _ _, q => inferInstanceAs (Decidable ((q.entries.lookup key).any (·.inFlight) = true))
  | .enqueue .., _ | .nextReady .., _ | .requeueDueRetries _, _ | .peerReachable _,
      _ | .resetSynchronizedForRoom _, _
  | .rehash _, _ => .isTrue trivial

/-! ## The representation -/

def isQueued (q : Queue) (k : Key) : Bool := (q.entries.lookup k).any (·.queued)

def isInFlight (q : Queue) (k : Key) : Bool := (q.entries.lookup k).any (·.inFlight)

structure Valid (limits : Limits) (q : Queue) : Prop where
  once : ∀ k, q.ready.count k = if q.isQueued k then 1 else 0
  exclusive : ∀ k, q.isInFlight k = true → q.isQueued k = false
  running : q.running ≤ limits.maxConcurrent
  peers : ∀ peer, q.peerRunning peer ≤ limits.maxPerPeer
  tracked : q.entries.entries.length ≤ q.maxTracked
  capacity : q.maxTracked = limits.maxTracked

section
variable {limits : Limits} {q q' : Queue} {key : Key} {e : Entry} {now : Instant}

theorem running_le (ks : List Key) (h : ∀ k, q'.isInFlight k = true → k ∈ ks ∨ q.isInFlight k = true) :
    q'.running ≤ ks.length + q.running :=
  AList.count_le ks h

theorem isInFlight_peer (peer : String) (k : Key) :
    (q.entries.lookup k).any (fun e => e.inFlight && k.peer = peer) = true ↔ q.isInFlight k =
      true ∧ k.peer = peer := by
  unfold isInFlight
  cases q.entries.lookup k with
  | none => simp
  | some e => simp

theorem peerRunning_le (ks : List Key) (peer : String)
    (h : ∀ k, k.peer = peer → q'.isInFlight k = true → k ∈ ks ∨ q.isInFlight k = true) :
    q'.peerRunning peer ≤ ks.length + q.peerRunning peer := by
  refine AList.count_le ks fun k hk => ?_
  rw [isInFlight_peer] at hk ⊢
  exact (h k hk.2 hk.1).imp_right fun hq => ⟨hq, hk.2⟩

theorem Valid.of_stopped (h : q.Valid limits) (hrun : ∀ k, q'.isInFlight k = true → q.isInFlight k = true)
    (honce : ∀ k, q'.ready.count k = if q'.isQueued k then 1 else 0)
    (hexcl : ∀ k, q'.isInFlight k = true → q'.isQueued k = false)
    (htracked : q'.entries.entries.length ≤ q'.maxTracked) (hmax : q'.maxTracked = q.maxTracked) :
    q'.Valid limits where
  once := honce
  exclusive := hexcl
  running := by
    have hle := running_le (q := q) [] fun k hk => .inr (hrun k hk)
    have hmax := h.running
    rw [List.length_nil, Nat.zero_add] at hle
    omega
  peers peer := by
    have hle := peerRunning_le (q := q) [] peer fun k _ hk => .inr (hrun k hk)
    have hmax := h.peers peer
    rw [List.length_nil, Nat.zero_add] at hle
    omega
  tracked := htracked
  capacity := hmax.trans h.capacity

theorem Valid.of_same (h : q.Valid limits) (hready : q'.ready = q.ready) (hmax : q'.maxTracked = q.maxTracked)
    (hlen : q'.entries.entries.length = q.entries.entries.length) (hq : ∀ k, q'.isQueued k = q.isQueued k)
    (hf : ∀ k, q'.isInFlight k = q.isInFlight k) : q'.Valid limits := by
  refine h.of_stopped (fun k hk => by rwa [hf] at hk) (fun k => ?_) (fun k hk => ?_) ?_ hmax
  · rw [hready, hq]
    exact h.once k
  · rw [hf] at hk
    rw [hq]
    exact h.exclusive k hk
  · rw [hlen, hmax]
    exact h.tracked

theorem Valid.mapValues (h : q.Valid limits) {f : Key → Entry → Entry}
    (hf : ∀ k e, q.entries.lookup k = some e → (f k e).queued = e.queued ∧ (f k e).inFlight = e.inFlight) :
    Valid limits { q with entries := q.entries.mapValues f } := by
  refine h.of_same rfl rfl (AList.length_mapValues _ _) (fun k => ?_) fun k => ?_
  · unfold isQueued
    rw [AList.lookup_mapValues]
    cases he : q.entries.lookup k with
    | none => rfl
    | some e => exact (hf k e he).1
  · unfold isInFlight
    rw [AList.lookup_mapValues]
    cases he : q.entries.lookup k with
    | none => rfl
    | some e => exact (hf k e he).2

theorem Valid.adjust (h : q.Valid limits) (he : q.entries.lookup key = some e) {e' : Entry}
    (hq : e'.queued = e.queued)
    (hf : e'.inFlight = e.inFlight) : Valid limits { q with entries := q.entries.adjust key fun _ => e' } := by
  refine h.mapValues fun k e₁ hk => ?_
  by_cases hkey : k = key
  · rw [hkey, he, Option.some.injEq] at hk
    subst hk
    rw [if_pos hkey]
    exact ⟨hq, hf⟩
  · rw [if_neg hkey]
    exact ⟨rfl, rfl⟩

/-- The flags of one pair change. -/
structure Others (q q' : Queue) (key : Key) : Prop where
  queued : ∀ k, k ≠ key → q'.isQueued k = q.isQueued k
  inFlight : ∀ k, k ≠ key → q'.isInFlight k = q.isInFlight k

theorem Others.of_lookup (h : ∀ k, k ≠ key → q'.entries.lookup k = q.entries.lookup k) : Others q q' key := by
  refine ⟨fun k hk => ?_, fun k hk => ?_⟩
  · unfold isQueued
    rw [h k hk]
  · unfold isInFlight
    rw [h k hk]

theorem Others.running (h : Others q q' key) {k : Key} (hk : q'.isInFlight k = true) :
    k = key ∨ q.isInFlight k = true := by
  by_cases hkey : k = key
  · exact .inl hkey
  · exact .inr (by rwa [h.inFlight k hkey] at hk)

theorem Valid.isQueued_of_mem (h : q.Valid limits) (hmem : key ∈ q.ready) : q.isQueued key = true := by
  have hpos := List.count_pos_iff.mpr hmem
  rw [h.once key] at hpos
  by_contra hq
  rw [if_neg hq] at hpos
  omega

theorem Valid.of_one (h : q.Valid limits) (ho : Others q q' key) (hf : q'.isInFlight key = false)
    (hready : ∀ k, k ≠ key → q'.ready.count k = q.ready.count k)
    (hkey : q'.ready.count key = if q'.isQueued key then 1 else 0)
    (hlen : q'.entries.entries.length ≤ q'.maxTracked) (hmax : q'.maxTracked = q.maxTracked) : q'.Valid limits := by
  have hne : ∀ k, q'.isInFlight k = true → k ≠ key := by
    rintro k hk rfl
    rw [hf] at hk
    cases hk
  refine h.of_stopped (fun k hk => ?_) (fun k => ?_) (fun k hk => ?_) hlen hmax
  · rwa [ho.inFlight k (hne k hk)] at hk
  · by_cases hk : k = key
    · rw [hk]
      exact hkey
    · rw [hready k hk, ho.queued k hk]
      exact h.once k
  · have hk' := hne k hk
    rw [ho.inFlight k hk'] at hk
    rw [ho.queued k hk']
    exact h.exclusive k hk

theorem Valid.push (h : q.Valid limits) (hnot : q.isQueued key = false) {entries : AList fun _ : Key => Entry}
    (hl : ∀ k, entries.lookup k = if k = key then some e else q.entries.lookup k) (hq : e.queued = true)
    (hf : e.inFlight = false) (hlen : entries.entries.length ≤ q.maxTracked) :
    Valid limits { q with entries := entries, ready := q.ready ++ [key] } := by
  have hkey : entries.lookup key = some e := by rw [hl, if_pos rfl]
  refine h.of_one (.of_lookup fun k hk => (hl k).trans (if_neg hk)) ?_ (fun k hk => ?_) ?_ hlen rfl
  · show (entries.lookup key).any (·.inFlight) = false
    rw [hkey]
    exact hf
  · rw [List.count_append, List.count_singleton, if_neg (by simpa using fun hk' => hk hk'.symm), Nat.add_zero]
  · have hqueued : Queue.isQueued { q with entries := entries, ready := q.ready ++ [key] } key = true := by
      show (entries.lookup key).any (·.queued) = true
      rw [hkey]
      exact hq
    rw [hqueued, List.count_append, List.count_singleton_self, h.once key, hnot]
    rfl

theorem Valid.erase (h : q.Valid limits) (hnot : q.isQueued key = false) :
    Valid limits { q with entries := q.entries.erase key } := by
  have hnone : (q.entries.erase key).lookup key = none := AList.lookup_erase key q.entries
  have hsub : (q.entries.erase key).entries.length ≤ q.entries.entries.length :=
    (List.kerase_sublist key q.entries.entries).length_le
  refine h.of_one (.of_lookup fun k hk => AList.lookup_erase_ne hk) ?_ (fun _ _ => rfl) ?_ (hsub.trans h.tracked)
    rfl
  · show ((q.entries.erase key).lookup key).any (·.inFlight) = false
    rw [hnone]
    rfl
  · have hgone : Queue.isQueued { q with entries := q.entries.erase key } key = false := by
      show ((q.entries.erase key).lookup key).any (·.queued) = false
      rw [hnone]
      rfl
    rw [hgone, ← hnot]
    exact h.once key

/-! ## The steps -/

theorem isQueued_of_lookup (he : q.entries.lookup key = some e) : q.isQueued key = e.queued := by
  unfold isQueued
  rw [he]
  rfl

theorem isInFlight_of_lookup (he : q.entries.lookup key = some e) : q.isInFlight key = e.inFlight := by
  unfold isInFlight
  rw [he]
  rfl

theorem noticed_flags (reason : Reason) :
    (e.noticed reason).queued = e.queued ∧ (e.noticed reason).inFlight = e.inFlight := by
  unfold Entry.noticed
  split <;> exact ⟨rfl, rfl⟩

theorem overridden_flags (reason : Reason) :
    (e.overridden reason).queued = e.queued ∧ (e.overridden reason).inFlight = e.inFlight := by
  unfold Entry.overridden
  split <;> exact ⟨rfl, rfl⟩

theorem lookup_adjust_const (he : q.entries.lookup key = some e) (e' : Entry) (k : Key) :
    (q.entries.adjust key fun _ => e').lookup k = if k = key then some e' else q.entries.lookup k := by
  rw [AList.lookup_adjust, he]
  rfl

theorem enqueueTracked_valid (h : q.Valid limits) (he : q.entries.lookup key = some e) (reason : Reason) :
    (q.enqueueTracked key e reason now).2.Valid limits := by
  obtain ⟨hq, hf⟩ := noticed_flags (e := e) reason
  unfold enqueueTracked
  simp only
  split
  · refine h.adjust he ?_ ?_ <;> split <;> assumption
  · rename_i hflight
    split
    · refine h.adjust he ?_ ?_ <;> split <;> assumption
    · rename_i hqueued
      split
      · exact h.adjust he hq hf
      · obtain ⟨hq', hf'⟩ := overridden_flags (e := e.noticed reason) reason
        refine h.push ?_ (lookup_adjust_const he _) rfl ?_ ?_
        · rw [isQueued_of_lookup he]
          simpa using hqueued
        · show ((e.noticed reason).overridden reason).inFlight = false
          rw [hf', hf]
          simpa using hflight
        · show (q.entries.adjust key _).entries.length ≤ q.maxTracked
          unfold AList.adjust
          rw [AList.length_mapValues]
          exact h.tracked

theorem lesser_cases {α : Type} (f : α → Option Instant) (best : Option α) (x : α) :
    lesser f best x = some x ∨ lesser f best x = best := by
  unfold lesser
  split
  · exact .inl rfl
  · split
    · exact .inl rfl
    · split
      · exact .inl rfl
      · exact .inr rfl
    · exact .inr rfl

theorem firstMin_mem {α : Type} {f : α → Option Instant} {xs : List α} {x : α} (h : firstMin f xs = some x) :
    x ∈ xs := by
  have hfold : ∀ (xs : List α) (best : Option α), xs.foldl (lesser f) best = some x → x ∈ xs ∨ best = some x := by
    intro xs
    induction xs with
    | nil => exact fun best hb => .inr hb
    | cons y ys ih =>
      intro best hb
      rcases ih _ hb with hmem | hbest
      · exact .inl (List.mem_cons_of_mem y hmem)
      · rcases lesser_cases f best y with hy | hy
        · rw [hy, Option.some.injEq] at hbest
          exact .inl (hbest ▸ List.mem_cons_self)
        · exact .inr (hy ▸ hbest)
  rcases hfold xs none h with hmem | hnone
  · exact hmem
  · cases hnone

theorem victim_idle (h : q.victim now = some key) :
    ∃ e, q.entries.lookup key = some e ∧ e.queued = false ∧ e.inFlight = false := by
  unfold victim at h
  obtain ⟨⟨k, e⟩, hx, rfl⟩ := Option.map_eq_some_iff.mp h
  have hmem : (⟨k, e⟩ : Σ _ : Key, Entry) ∈ q.entries.entries ∧ e.queued = false ∧ e.inFlight = false := by
    rcases Option.or_eq_some_iff.mp hx with hs | ⟨-, hs⟩
    · obtain ⟨hin, hp⟩ := List.mem_filter.mp (firstMin_mem hs)
      simp only [served, Bool.and_eq_true, Bool.not_eq_true'] at hp
      exact ⟨hin, hp.1.1.1.1, hp.1.1.1.2⟩
    · obtain ⟨hin, hp⟩ := List.mem_filter.mp (firstMin_mem hs)
      simp only [idleFailed, Bool.and_eq_true, Bool.not_eq_true'] at hp
      exact ⟨hin, hp.1.1, hp.1.2⟩
  exact ⟨e, AList.mem_entries_iff.mp hmem.1, hmem.2⟩

variable (now) in
theorem evictIdle_valid (h : q.Valid limits) : (q.evictIdle now).2.Valid limits ∧
    (q.evictIdle now).2.maxTracked = q.maxTracked ∧
    (∀ k, q.entries.lookup k = none → (q.evictIdle now).2.entries.lookup k = none) ∧
    ((q.evictIdle now).1 = true → (q.evictIdle now).2.entries.entries.length < q.entries.entries.length) := by
  unfold evictIdle
  split
  · rename_i key hv
    obtain ⟨e, he, hq, -⟩ := victim_idle hv
    refine ⟨h.erase ((isQueued_of_lookup he).trans hq), rfl, fun k hk => ?_, fun _ => ?_⟩
    · rw [AList.lookup_erase_eq, hk, ite_self]
    · have hmem : key ∈ q.entries := AList.lookup_isSome.mp (by rw [he]; rfl)
      have hlen := AList.length_erase hmem
      show (q.entries.erase key).entries.length < q.entries.entries.length
      omega
  · exact ⟨h, rfl, fun _ hk => hk, fun hf => by cases hf⟩

theorem evictIdle_keeps (he : q.entries.lookup key = some e) (hbusy : e.queued = true ∨ e.inFlight = true) :
    (q.evictIdle now).2.entries.lookup key = some e := by
  unfold evictIdle
  split
  · rename_i v hv
    obtain ⟨e', he', hq, hf⟩ := victim_idle hv
    rw [AList.lookup_erase_ne, he]
    rintro rfl
    rw [he, Option.some.injEq] at he'
    subst he'
    rcases hbusy with hb | hb
    · rw [hq] at hb
      cases hb
    · rw [hf] at hb
      cases hb
  · exact he

theorem track_valid (h : q.Valid limits) (hnone : q.entries.lookup key = none)
    (hlen : q.entries.entries.length < q.maxTracked) (reason : Reason) : (q.track key reason).Valid limits := by
  have hnot : q.isQueued key = false := by
    unfold isQueued
    rw [hnone]
    rfl
  refine h.push hnot (e := { queued := true, reason := reason }) (fun k => ?_) rfl rfl ?_
  · by_cases hk : k = key
    · rw [hk, AList.lookup_insert, if_pos rfl]
    · rw [AList.lookup_insert_ne hk, if_neg hk]
  · rw [AList.length_insert _ (AList.lookup_eq_none.mp hnone)]
    exact hlen

theorem enqueue_valid (h : q.Valid limits) (reason : Reason) : (q.enqueue key reason now).2.Valid limits := by
  unfold enqueue
  split
  · rename_i e he
    exact enqueueTracked_valid h he reason
  · rename_i hnone
    obtain ⟨hv, hmax, hl, hlen⟩ := evictIdle_valid now h
    split
    · split
      · rename_i q' hq'
        rw [hq'] at hv hmax hl hlen
        refine track_valid hv (hl key hnone) ?_ reason
        have hlt : q'.entries.entries.length < q.entries.entries.length := hlen rfl
        have hsame : q'.maxTracked = q.maxTracked := hmax
        have htracked := h.tracked
        show q'.entries.entries.length < q'.maxTracked
        omega
      · rename_i q' hq'
        rw [hq'] at hv
        exact hv
    · exact track_valid h hnone (by omega) reason

theorem due_flags (hd : due now e = true) : e.queued = false ∧ e.inFlight = false := by
  simp only [due, Bool.and_eq_true, Bool.not_eq_true'] at hd
  exact ⟨hd.1.1.2, hd.1.2⟩

theorem requeueDueRetries_valid (h : q.Valid limits) : (q.requeueDueRetries now).2.Valid limits := by
  have hflight : ∀ k, (q.requeueDueRetries now).2.isInFlight k = q.isInFlight k := by
    intro k
    simp only [isInFlight, requeueDueRetries, AList.lookup_mapValues]
    cases q.entries.lookup k with
    | none => rfl
    | some e =>
      simp only [Option.map_some, Option.any_some]
      split <;> rfl
  have hqueued : ∀ k, (q.requeueDueRetries now).2.isQueued k =
      (q.isQueued k || (q.entries.lookup k).any (due now)) := by
    intro k
    simp only [isQueued, requeueDueRetries, AList.lookup_mapValues]
    cases q.entries.lookup k with
    | none => rfl
    | some e => cases hd : due now e <;> simp [hd]
  have hidle : ∀ k, (q.entries.lookup k).any (due now) = true → q.isQueued k = false ∧ q.isInFlight k = false := by
    intro k hk
    obtain ⟨e, he, hd⟩ := (Option.any_eq_true ..).mp hk
    rw [isQueued_of_lookup he, isInFlight_of_lookup he]
    exact due_flags hd
  refine h.of_stopped (fun k hk => by rwa [hflight] at hk) (fun k => ?_) (fun k hk => ?_) ?_ rfl
  · rw [hqueued]
    show (q.ready ++ (q.entries.entries.filter fun x => due now x.2).map (·.1)).count k = _
    rw [List.count_append, h.once k, (AList.nodup_keys_filter (fun _ e => due now e) q.entries).count]
    have hmem := AList.mem_keys_filter (fun _ e => due now e) q.entries k
    by_cases hd : (q.entries.lookup k).any (due now) = true
    · rw [if_pos (hmem.mpr hd), (hidle k hd).1, hd]
      rfl
    · rw [if_neg fun hk => hd (hmem.mp hk), Bool.not_eq_true _ |>.mp hd, Bool.or_false, Nat.add_zero]
  · rw [hflight] at hk
    rw [hqueued, h.exclusive k hk, Bool.false_or]
    by_contra hd
    rw [(hidle k (Bool.not_eq_false _ |>.mp hd)).2] at hk
    cases hk
  · show (q.entries.mapValues _).entries.length ≤ q.maxTracked
    rw [AList.length_mapValues]
    exact h.tracked

theorem eligible_spec {maxPerPeer : Nat} {periodicAllowed priority : Bool}
    (h : q.eligible now maxPerPeer periodicAllowed priority key = true) :
    (q.entries.lookup key).isSome = true ∧ q.peerRunning key.peer < maxPerPeer := by
  unfold eligible at h
  split at h
  · cases h
  · rename_i e he
    simp only [Bool.and_eq_true, decide_eq_true_eq] at h
    exact ⟨by rw [he]; rfl, h.1.2⟩

theorem findSome_eligible {maxPerPeer : Nat} {periodicAllowed : Bool} {index : Nat}
    (h : ([true, false].findSome? fun priority =>
      q.ready.findIdx? (q.eligible now maxPerPeer periodicAllowed priority)) = some index) :
    ∃ key, q.ready[index]? = some key ∧ (q.entries.lookup key).isSome = true ∧
      q.peerRunning key.peer < maxPerPeer := by
  obtain ⟨priority, -, hp⟩ := List.exists_of_findSome?_eq_some h
  obtain ⟨hlt, he, -⟩ := List.findIdx?_eq_some_iff_getElem.mp hp
  exact ⟨q.ready[index], List.getElem?_eq_getElem hlt, eligible_spec he⟩

theorem take_valid (h : q.Valid limits) {index : Nat} (hindex : q.ready[index]? = some key)
    (he : q.entries.lookup key = some e) (hrun : q.running < limits.maxConcurrent)
    (hpeer : q.peerRunning key.peer < limits.maxPerPeer) :
    Valid limits { q with ready := q.ready.eraseIdx index, entries := q.entries.adjust key taken } := by
  obtain ⟨hlt, hget⟩ := List.getElem?_eq_some_iff.mp hindex
  have hperm : (key :: q.ready.eraseIdx index).Perm q.ready := by
    rw [← hget]
    exact List.getElem_cons_eraseIdx_perm hlt
  -- the key leaves the ready list, where it was once
  have hcount : ∀ k, (q.ready.eraseIdx index).count k + (if key == k then 1 else 0) = q.ready.count k := by
    intro k
    rw [← hperm.count_eq k, List.count_cons]
  have hqueued := h.isQueued_of_mem (List.mem_of_getElem? hindex)
  have hnew : (q.entries.adjust key taken).lookup key = some (taken e) := by
    rw [AList.lookup_adjust, if_pos rfl, he]
    rfl
  have ho : Others q { q with ready := q.ready.eraseIdx index, entries := q.entries.adjust key taken } key :=
    .of_lookup fun k hk => by rw [AList.lookup_adjust, if_neg hk]
  refine ⟨fun k => ?_, fun k hk => ?_, ?_, fun peer => ?_, ?_, h.capacity⟩
  · have hc := hcount k
    by_cases hk : k = key
    · subst hk
      rw [isQueued_of_lookup hnew]
      rw [h.once k, hqueued, beq_self_eq_true] at hc
      simpa [taken] using hc
    · have hne : (key == k) = false := by simpa using fun hk' => hk hk'.symm
      rw [hne] at hc
      rw [ho.queued k hk, ← h.once k]
      simpa using hc
  · by_cases hk' : k = key
    · subst hk'
      rw [isQueued_of_lookup hnew]
      rfl
    · rw [ho.inFlight k hk'] at hk
      rw [ho.queued k hk']
      exact h.exclusive k hk
  -- its pair is the only one to start, and there was room for it
  · have hle := running_le (q := q) [key] fun k hk => (ho.running hk).imp_left List.mem_singleton.mpr
    rw [List.length_singleton] at hle
    omega
  · by_cases hp : key.peer = peer
    · have hle := peerRunning_le (q := q) [key] peer fun k _ hk => (ho.running hk).imp_left List.mem_singleton.mpr
      rw [List.length_singleton, ← hp] at hle
      rw [← hp]
      omega
    · have hle := peerRunning_le (q := q) [] peer fun k hkp hk =>
        (ho.running hk).imp_left fun hk' => absurd (hk' ▸ hkp) hp
      have hmax := h.peers peer
      rw [List.length_nil, Nat.zero_add] at hle
      omega
  · show (q.entries.mapValues _).entries.length ≤ q.maxTracked
    rw [AList.length_mapValues]
    exact h.tracked

theorem nextReady_valid (h : q.Valid limits) (periodicAllowed : Bool) :
    (q.nextReady now limits.maxConcurrent limits.maxPerPeer periodicAllowed).2.Valid limits := by
  unfold nextReady
  split
  · exact h
  · rename_i hrun
    split
    · exact h
    · rename_i index hfind
      obtain ⟨key, hindex, hsome, hpeer⟩ := findSome_eligible hfind
      obtain ⟨e, he⟩ := Option.isSome_iff_exists.mp hsome
      simp only [hindex, he]
      exact take_valid h hindex he (by omega) hpeer

variable (e now) in
theorem ended_flags (base limit : Duration) (verdict : Verdict) :
    (e.ended base limit verdict now).queued = e.queued ∧ (e.ended base limit verdict now).inFlight = false := by
  unfold Entry.ended
  cases verdict with
  | synchronized =>
    simp only
    split <;> exact ⟨rfl, rfl⟩
  | done => exact ⟨rfl, rfl⟩
  | continuation => exact ⟨rfl, rfl⟩
  | failed => exact ⟨rfl, rfl⟩
  | unsupported => exact ⟨rfl, rfl⟩
  | dropped => exact ⟨rfl, rfl⟩

theorem pushBack_valid (h : q.Valid limits) (he : q.entries.lookup key = some e) (hq : q.isQueued key = false)
    {e' : Entry} (hf : e'.inFlight = false) : (q.pushBack key e').Valid limits := by
  refine h.push hq (lookup_adjust_const he _) rfl hf ?_
  show (q.entries.mapValues _).entries.length ≤ q.maxTracked
  rw [AList.length_mapValues]
  exact h.tracked

theorem stop_valid (h : q.Valid limits) (he : q.entries.lookup key = some e) {e' : Entry}
    (hq : e'.queued = e.queued)
    (hf : e'.inFlight = false) : Valid limits { q with entries := q.entries.adjust key fun _ => e' } := by
  have hnew := (lookup_adjust_const he e' key).trans (if_pos rfl)
  refine h.of_one (.of_lookup fun k hk => (lookup_adjust_const he e' k).trans (if_neg hk)) ?_
    (fun _ _ => rfl) ?_ ?_ rfl
  · rw [isInFlight_of_lookup hnew, hf]
  · rw [isQueued_of_lookup hnew, hq, ← isQueued_of_lookup he]
    exact h.once key
  · show (q.entries.mapValues _).entries.length ≤ q.maxTracked
    rw [AList.length_mapValues]
    exact h.tracked

theorem finish_valid (h : q.Valid limits) (hrun : q.isInFlight key = true) (verdict : Verdict) :
    (q.finish key verdict now).2.Valid limits := by
  -- the pair is running, so it is not in the ready list and may be pushed there
  have hq : q.isQueued key = false := h.exclusive key hrun
  unfold finish
  split
  · exact h.erase hq
  · split
    · exact h
    · rename_i e he
      obtain ⟨hq', hf'⟩ := ended_flags e now q.failureBackoff q.failureBackoffMax verdict
      simp only
      split
      · exact pushBack_valid h he hq hf'
      · split
        · exact pushBack_valid h he hq ((overridden_flags _).2.trans hf')
        · split
          · exact h.erase hq
          · exact stop_valid h he hq' hf'

theorem rehash_valid (h : q.Valid limits) {entries : AList fun _ : Key => Entry}
    (hp : entries.entries.Perm q.entries.entries) : Valid limits { q with entries := entries } := by
  have hl : ∀ k, entries.lookup k = q.entries.lookup k := fun k => AList.perm_lookup hp
  refine h.of_same rfl rfl hp.length_eq (fun k => ?_) fun k => ?_
  · unfold isQueued
    rw [hl]
  · unfold isInFlight
    rw [hl]

theorem step_valid {a : Action} (h : q.Valid limits) (hok : Ends a q) (hs : q.step limits a = some q') :
    q'.Valid limits := by
  cases a with
  | enqueue key reason now =>
    cases hs
    exact enqueue_valid h reason
  | nextReady now periodicAllowed =>
    cases hs
    exact nextReady_valid h periodicAllowed
  | finish key verdict now =>
    cases hs
    exact finish_valid h hok verdict
  | requeueDueRetries now =>
    cases hs
    exact requeueDueRetries_valid h
  | peerReachable key =>
    cases hs
    refine h.mapValues fun k e _ => ?_
    split <;> exact ⟨rfl, rfl⟩
  | resetSynchronizedForRoom room =>
    cases hs
    refine h.mapValues fun k e _ => ?_
    split <;> exact ⟨rfl, rfl⟩
  | rehash entries =>
    simp only [step] at hs
    split at hs
    · rename_i hp
      cases hs
      exact rehash_valid h hp
    · cases hs

theorem new_valid (limits : Limits) (base max : Duration) :
    ((Queue.new limits.maxTracked).withFailureBackoff base max).Valid limits :=
  ⟨fun _ => rfl, fun _ h => (by cases h), Nat.zero_le _, fun _ => Nat.zero_le _, Nat.zero_le _, rfl⟩

end

/-- In every state that calls reach, for any configuration and any times: a key is in the
ready list once when its entry is queued and not otherwise, no entry is both queued and
running, the running exchanges are within both limits, the tracked pairs within theirs,
and evictions drop neither queued nor running pairs. -/
theorem queue_valid (limits : Limits) (base max : Duration) {q : Queue}
    (hrun : Reaches (fun a q => q.step limits a) Ends
      ((Queue.new limits.maxTracked).withFailureBackoff base max) q) :
    (∀ k, q.ready.count k = if (q.entries.lookup k).any (·.queued) then 1 else 0) ∧
      (∀ k e, q.entries.lookup k = some e → ¬ (e.queued = true ∧ e.inFlight = true)) ∧
      (q.running = (q.entries.entries.filter fun x => x.2.inFlight).length ∧ q.running ≤ limits.maxConcurrent) ∧
      (∀ peer, q.peerRunning peer = (q.entries.entries.filter fun x => x.2.inFlight && x.1.peer = peer).length ∧
        q.peerRunning peer ≤ limits.maxPerPeer) ∧
      q.entries.entries.length ≤ limits.maxTracked ∧
      ∀ now k e, q.entries.lookup k = some e → e.queued = true ∨ e.inFlight = true →
        (q.evictIdle now).2.entries.lookup k = some e := by
  have hvalid : q.Valid limits :=
    Reaches.invariant (new_valid limits base max) (fun _ _ _ h hok hs => step_valid h hok hs) hrun
  refine ⟨hvalid.once, fun k e he hboth => ?_, ⟨List.countP_eq_length_filter, hvalid.running⟩,
    fun peer => ⟨List.countP_eq_length_filter, hvalid.peers peer⟩, hvalid.capacity ▸ hvalid.tracked,
    fun now k e he hbusy => evictIdle_keeps he hbusy⟩
  have hexcl := hvalid.exclusive k ((isInFlight_of_lookup he).trans hboth.2)
  rw [isQueued_of_lookup he, hboth.1] at hexcl
  cases hexcl

/-- A pair that a trigger finds running is queued again when its exchange fails, at the
limit of tracked pairs. -/
theorem dirty_pair_queued_again :
    let limits : Limits := ⟨1, 1, 1⟩
    let k : Key := ⟨"!r:a", "b"⟩
    ∃ q, runWhile (fun a q => step limits a q) Ends
        [.enqueue k .periodic 0, .nextReady 0 true, .enqueue k .activity 1, .enqueue ⟨"!s:a", "b"⟩ .explicit 1,
          .finish k .failed 2, .nextReady 3 true]
        ((Queue.new limits.maxTracked).withFailureBackoff backoffBase backoffMax) = some q ∧
      q.ready.count k = 1 ∧ q.entries.entries.length ≤ 1 := by
  intro limits k
  have hsome : (runWhile (fun a q => step limits a q) Ends
      [.enqueue k .periodic 0, .nextReady 0 true, .enqueue k .activity 1, .enqueue ⟨"!s:a", "b"⟩ .explicit 1,
        .finish k .failed 2, .nextReady 3 true]
      ((Queue.new limits.maxTracked).withFailureBackoff backoffBase backoffMax)).any (·.isQueued k) = true := by
    decide
  obtain ⟨q, hq, hqueued⟩ := (Option.any_eq_true ..).mp hsome
  obtain ⟨honce, -, -, -, htracked, -⟩ :=
    queue_valid limits backoffBase backoffMax (Reaches.of_runWhile _ .init hq)
  exact ⟨q, hq, (honce k).trans (if_pos hqueued), htracked⟩

end Queue

end Congruent.Reconcile
