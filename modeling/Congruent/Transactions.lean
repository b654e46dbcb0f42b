import Mathlib.Data.List.Sort
import Congruent.KeyedMap
import Congruent.Machine

/-!
# Inbound transactions

The table of federation transactions (`transactions/mod.rs`): those being processed and
the cached responses of those that ended, in one map without an order of its own.
-/

namespace Congruent.Transactions

/-- Nanoseconds since the epoch. -/
abbrev SystemTime := Int

structure TxnKey where
  origin : String
  transactionId : String
  deriving DecidableEq

inductive TransactionError where
  | shuttingDown
  | transient (message : String)
  deriving DecidableEq

structure Config where
  maxConcurrentInboundTransactionsPerOrigin : Nat
  maxConcurrentInboundTransactions : Nat
  transactionIdCacheMaxAgeSecs : Nat
  transactionIdCacheMaxEntries : Nat

def cleanupIntervalSecs : Nat := 30

/-- A transaction being processed, with the channel its waiters listen on, or a cached
response. -/
inductive TxnState (R : Type) where
  | active (channel : Nat)
  | cached (response : R) (created : SystemTime)
  deriving DecidableEq

namespace TxnState

variable {R : Type}

def isActive : TxnState R → Bool
  | active _ => true
  | cached .. => false

def created? : TxnState R → Option SystemTime
  | active _ => none
  | cached _ created => some created

def isCached (v : TxnState R) : Bool := !v.isActive

end TxnState

inductive FederationTxnState (R : Type) where
  | cached (response : R)
  | active (receiver : Nat)
  | started (channel : Nat)
  deriving DecidableEq

inductive Overload where
  /-- "Still processing another transaction from this origin" -/
  | origin
  /-- "Server is overloaded, try again later" -/
  | server
  deriving DecidableEq

abbrev Txns (R : Type) := AList fun _ : TxnKey => TxnState R

structure Service (R : Type) where
  federationTxnState : Txns R
  lastCleanup : Nat
  /-- What was last sent on each channel. -/
  sent : Nat → Option (Except TransactionError R)
  nextChannel : Nat

section
variable {R : Type} (config : Config)

/-! ## The operations -/

def activeCount (m : Txns R) : Nat := m.count fun _ v => v.isActive

def activeFromOrigin (m : Txns R) (origin : String) : Nat :=
  m.count fun k v => decide (k.origin = origin) && v.isActive

def cachedCount (m : Txns R) : Nat := m.count fun _ v => v.isCached

/-- Only cached entries go. -/
def clear (m : Txns R) : Txns R := m.retain fun _ v => v.isActive

/-- `SystemTime::checked_sub`, of seconds. -/
def checkedSub (now : SystemTime) (secs : Nat) : Option SystemTime :=
  if -9223372036854775808 * 1000000000 ≤ now - secs * 1000000000 then some (now - secs * 1000000000) else none

/-- Entries created by then are too old. -/
def cutoff (now : SystemTime) : SystemTime := (checkedSub now config.transactionIdCacheMaxAgeSecs).getD 0

def young (now : SystemTime) (v : TxnState R) : Bool :=
  match v with
  | .active _ => true
  | .cached _ created => cutoff config now < created

/-- The cached entries with their times, oldest first. -/
def cachedEntries (m : Txns R) : List (TxnKey × SystemTime) :=
  (m.entries.filterMap fun e => e.2.created?.map fun created => (e.1, created)).mergeSort fun a b => a.2 ≤ b.2

def evictOldest (m : Txns R) (excess : Nat) : Txns R :=
  ((cachedEntries m).take excess).foldl (fun m e => m.erase e.1) m

/-- Entries past the maximum age go, and then the oldest ones until the number is
within its limit. -/
def cleanupEntriesLocked (now : SystemTime) (m : Txns R) : Txns R :=
  let m := m.retain fun _ v => young config now v
  if config.transactionIdCacheMaxEntries < cachedCount m then
    evictOldest m (cachedCount m - config.transactionIdCacheMaxEntries)
  else m

namespace Service

def clearCache (s : Service R) : Service R := { s with federationTxnState := clear s.federationTxnState }

def send (s : Service R) (channel : Nat) (value : Except TransactionError R) : Service R :=
  { s with sent := Function.update s.sent channel (some value) }

def getOrStartFederationTxn (s : Service R) (key : TxnKey) : Except Overload (FederationTxnState R) × Service R :=
  match s.federationTxnState.lookup key with
  | some (.cached response _) => (.ok (.cached response), s)
  | some (.active channel) => (.ok (.active channel), s)
  | none =>
    if config.maxConcurrentInboundTransactionsPerOrigin ≤ activeFromOrigin s.federationTxnState key.origin then
      (.error .origin, s)
    else if config.maxConcurrentInboundTransactions ≤ s.federationTxnState.entries.length ∧
        config.maxConcurrentInboundTransactions ≤ activeCount s.federationTxnState then
      (.error .server, s)
    else
      (.ok (.started s.nextChannel), { s with
        federationTxnState := s.federationTxnState.insert key (.active s.nextChannel)
        sent := Function.update s.sent s.nextChannel none
        nextChannel := s.nextChannel + 1 })

/-- Whether enough time has passed since the last cleanup; another call may be faster. -/
def shouldTryCleanup (s : Service R) (nowSecs : Nat) (overtaken : Bool) : Bool × Service R :=
  if cleanupIntervalSecs ≤ nowSecs - s.lastCleanup && !overtaken then (true, { s with lastCleanup := nowSecs })
  else (false, s)

/-- The times a call reads, in its order. -/
structure Times where
  secs : Nat
  created : SystemTime
  cleanup : SystemTime

def finishFederationTxn (s : Service R) (key : TxnKey) (channel : Nat) (response : R) (times : Times)
    (overtaken : Bool) : Service R :=
  let tried := s.shouldTryCleanup times.secs overtaken
  let stored := tried.2.federationTxnState.insert key (.cached response times.created)
  { tried.2.send channel (.ok response) with
    federationTxnState := if tried.1 then cleanupEntriesLocked config times.cleanup stored else stored }

def removeFederationTxn (s : Service R) (key : TxnKey) : Service R :=
  { s with federationTxnState := s.federationTxnState.erase key }

def failFederationTxn (s : Service R) (key : TxnKey) (channel : Nat) (err : TransactionError) : Service R :=
  (s.removeFederationTxn key).send channel (.error err)

end Service

/-! ## Runs -/

/-- The service, the results that are outstanding, and the last response given to the
finish of each key. -/
structure Table (R : Type) where
  service : Service R
  outstanding : List (TxnKey × Nat)
  finished : TxnKey → Option R

def Table.new : Table R := ⟨⟨∅, 0, fun _ => none, 0⟩, [], fun _ => none⟩

/-- A call, or a change of the order in which the map is gone through. Finishing and
failing are called by the holder of the result. -/
inductive Action (R : Type) where
  | getOrStart (key : TxnKey)
  | finish (key : TxnKey) (channel : Nat) (response : R) (times : Service.Times) (overtaken : Bool)
  | fail (key : TxnKey) (channel : Nat) (err : TransactionError)
  | clearCache
  | cleanup (now : SystemTime)
  | rehash (m : Txns R)

namespace Table

def started (key : TxnKey) (outstanding : List (TxnKey × Nat)) :
    Except Overload (FederationTxnState R) → List (TxnKey × Nat)
  | .ok (.started channel) => (key, channel) :: outstanding
  | _ => outstanding

def step [DecidableEq R] (t : Table R) : Action R → Option (Table R)
  | .getOrStart key =>
    let answer := t.service.getOrStartFederationTxn config key
    some { t with service := answer.2, outstanding := started key t.outstanding answer.1 }
  | .finish key channel response times overtaken =>
    if (key, channel) ∈ t.outstanding then
      some ⟨t.service.finishFederationTxn config key channel response times overtaken,
        t.outstanding.erase (key, channel), Function.update t.finished key (some response)⟩
    else none
  | .fail key channel err =>
    if (key, channel) ∈ t.outstanding then
      some { t with
        service := t.service.failFederationTxn key channel err
        outstanding := t.outstanding.erase (key, channel) }
    else none
  | .clearCache => some { t with service := t.service.clearCache }
  | .cleanup now => some { t with
      service := { t.service with
        federationTxnState := cleanupEntriesLocked config now t.service.federationTxnState } }
  | .rehash m =>
    if m.entries.Perm t.service.federationTxnState.entries then
      some { t with service := { t.service with federationTxnState := m } }
    else none

end Table

end

section
variable {R : Type} {config : Config} {m : Txns R} {now : SystemTime} {k : TxnKey}

/-! ## Cleaning up -/

theorem lookup_clear (m : Txns R) (k : TxnKey) : (clear m).lookup k = (m.lookup k).filter (·.isActive) :=
  AList.lookup_retain _ _ _

theorem mem_cachedEntries (created : SystemTime) :
    (k, created) ∈ cachedEntries m ↔ ∃ v, m.lookup k = some v ∧ v.created? = some created := by
  unfold cachedEntries
  rw [List.mem_mergeSort, List.mem_filterMap]
  constructor
  · rintro ⟨⟨k', v⟩, he, hv⟩
    obtain ⟨c, hc, heq⟩ := Option.map_eq_some_iff.mp hv
    obtain ⟨rfl, rfl⟩ := Prod.mk.inj heq
    exact ⟨v, AList.mem_entries_iff.mp he, hc⟩
  · rintro ⟨v, hv, hc⟩
    exact ⟨⟨k, v⟩, AList.mem_entries_iff.mpr hv, by rw [hc]; rfl⟩

theorem length_cachedEntries (m : Txns R) : (cachedEntries m).length = cachedCount m := by
  unfold cachedEntries cachedCount AList.count
  rw [List.length_mergeSort, List.countP_eq_length_filter]
  induction m.entries with
  | nil => rfl
  | cons e es ih =>
    obtain ⟨k, v⟩ := e
    cases v with
    | active c => simpa [TxnState.created?, TxnState.isCached, TxnState.isActive] using ih
    | cached r c => simpa [TxnState.created?, TxnState.isCached, TxnState.isActive] using ih

theorem cachedEntries_sorted (m : Txns R) : (cachedEntries m).Pairwise fun a b => a.2 ≤ b.2 := by
  have h : (cachedEntries m).Pairwise fun a b => decide (a.2 ≤ b.2) = true := List.pairwise_mergeSort
    (fun a b c hab hbc => by
      rw [decide_eq_true_eq] at *
      exact Int.le_trans hab hbc)
    (fun a b => by
      rw [Bool.or_eq_true, decide_eq_true_eq, decide_eq_true_eq]
      exact Int.le_total a.2 b.2)
    (m.entries.filterMap fun e => e.2.created?.map fun created => (e.1, created))
  exact h.imp fun hab => of_decide_eq_true hab

theorem lookup_foldl_erase (l : List (TxnKey × SystemTime)) (m : Txns R) (k : TxnKey) :
    (l.foldl (fun m e => m.erase e.1) m).lookup k = if k ∈ l.map (·.1) then none else m.lookup k := by
  induction l generalizing m with
  | nil => simp
  | cons e es ih =>
    have hcons : k ∈ (e :: es).map (·.1) ↔ k = e.1 ∨ k ∈ es.map (·.1) := by rw [List.map_cons, List.mem_cons]
    rw [List.foldl_cons, ih, AList.lookup_erase_eq]
    by_cases hk : k = e.1
    · rw [if_pos hk, if_pos (hcons.mpr (.inl hk)), ite_self]
    · by_cases hmem : k ∈ es.map (·.1)
      · rw [if_pos hmem, if_pos (hcons.mpr (.inr hmem))]
      · rw [if_neg hmem, if_neg hk, if_neg fun h => (hcons.mp h).elim hk hmem]

theorem evictOldest_spec (m : Txns R) (excess : Nat) (k : TxnKey) :
    (evictOldest m excess).lookup k =
      if k ∈ ((cachedEntries m).take excess).map (·.1) then none else m.lookup k :=
  lookup_foldl_erase _ _ _

theorem mem_take_or_drop (n : Nat) {x : TxnKey × SystemTime} (h : x ∈ cachedEntries m) :
    x ∈ (cachedEntries m).take n ∨ x ∈ (cachedEntries m).drop n := by
  rwa [← List.take_append_drop n (cachedEntries m), List.mem_append] at h

theorem not_mem_take_of_active {channel : Nat} (h : m.lookup k = some (.active channel)) (n : Nat) :
    k ∉ ((cachedEntries m).take n).map (·.1) := by
  intro hk
  obtain ⟨⟨k', created⟩, hmem, rfl⟩ := List.mem_map.mp hk
  obtain ⟨v, hv, hc⟩ := (mem_cachedEntries created).mp (List.mem_of_mem_take hmem)
  rw [h, Option.some.injEq] at hv
  subst hv
  cases hc

theorem cachedCount_evictOldest_le (m : Txns R) (excess : Nat) :
    cachedCount (evictOldest m excess) ≤ cachedCount m - excess := by
  have hle : cachedCount (evictOldest m excess) ≤ (((cachedEntries m).drop excess).map (·.1)).length +
      (∅ : Txns R).count fun _ v => v.isCached := by
    refine AList.count_le _ fun k hk => .inl ?_
    obtain ⟨v, hv, hcached⟩ := (Option.any_eq_true ..).mp hk
    rw [evictOldest_spec] at hv
    split at hv
    · cases hv
    · rename_i hnot
      cases v with
      | active channel => cases hcached
      | cached r created =>
        rcases mem_take_or_drop excess ((mem_cachedEntries created).mpr ⟨_, hv, rfl⟩) with ht | hd
        · exact absurd (List.mem_map_of_mem ht) hnot
        · exact List.mem_map_of_mem hd
  rw [List.length_map, List.length_drop, length_cachedEntries] at hle
  exact hle

theorem evictOldest_oldest {k' : TxnKey} {excess : Nat} {v v' : TxnState R} {created created' : SystemTime}
    (hv : m.lookup k = some v) (hc : v.created? = some created) (hgone : (evictOldest m excess).lookup k = none)
    (hv' : (evictOldest m excess).lookup k' = some v') (hc' : v'.created? = some created') : created ≤
      created' := by
  rw [evictOldest_spec] at hgone hv'
  split at hv'
  · cases hv'
  · rename_i hnot
    split at hgone
    · rename_i htaken
      obtain ⟨⟨k₁, c₁⟩, htake, rfl⟩ := List.mem_map.mp htaken
      obtain ⟨v₁, hv₁, hc₁⟩ := (mem_cachedEntries c₁).mp (List.mem_of_mem_take htake)
      rw [hv, Option.some.injEq] at hv₁
      subst hv₁
      rw [hc, Option.some.injEq] at hc₁
      subst hc₁
      rcases mem_take_or_drop excess ((mem_cachedEntries created').mpr ⟨v', hv', hc'⟩) with ht | hd
      · exact absurd (List.mem_map_of_mem ht) hnot
      · have hsorted := cachedEntries_sorted m
        rw [← List.take_append_drop excess (cachedEntries m), List.pairwise_append] at hsorted
        exact hsorted.2.2 _ htake _ hd
    · rw [hv] at hgone
      cases hgone

theorem cleanup_sub {v : TxnState R} (h : (cleanupEntriesLocked config now m).lookup k = some v) :
    m.lookup k = some v ∧ young config now v = true := by
  have hretain : ∀ {v}, (m.retain fun _ v => young config now v).lookup k = some v →
      m.lookup k = some v ∧ young config now v = true := by
    intro v hv
    rw [AList.lookup_retain, Option.filter_eq_some_iff] at hv
    exact hv
  unfold cleanupEntriesLocked at h
  simp only at h
  split at h
  · rw [evictOldest_spec] at h
    split at h
    · cases h
    · exact hretain h
  · exact hretain h

theorem cleanup_active {channel : Nat} (h : m.lookup k = some (.active channel)) :
    (cleanupEntriesLocked config now m).lookup k = some (.active channel) := by
  have hretain : (m.retain fun _ v => young config now v).lookup k = some (.active channel) := by
    rw [AList.lookup_retain, h]
    rfl
  unfold cleanupEntriesLocked
  simp only
  split
  · rw [evictOldest_spec, if_neg (not_mem_take_of_active hretain _)]
    exact hretain
  · exact hretain

theorem cachedCount_cleanup_le (config : Config) (now : SystemTime) (m : Txns R) :
    cachedCount (cleanupEntriesLocked config now m) ≤ config.transactionIdCacheMaxEntries := by
  unfold cleanupEntriesLocked
  simp only
  split
  · have hle := cachedCount_evictOldest_le (m.retain fun _ v => young config now v)
      (cachedCount (m.retain fun _ v => young config now v) - config.transactionIdCacheMaxEntries)
    omega
  · omega

/-- No removed entry is newer than a cached one that is kept: it is too old, which the
others are not, or one of the oldest. -/
theorem cleanup_oldest {k' : TxnKey} {v v' : TxnState R} {created created' : SystemTime} (hv : m.lookup k = some v)
    (hc : v.created? = some created) (hgone : (cleanupEntriesLocked config now m).lookup k = none)
    (hv' : (cleanupEntriesLocked config now m).lookup k' = some v') (hc' : v'.created? = some created') :
    created ≤ created' := by
  cases v with
  | active channel => cases hc
  | cached r c =>
    cases hc
    cases v' with
    | active channel => cases hc'
    | cached r' c' =>
      cases hc'
      -- the removed entry was one of the oldest, or too old, which the kept one is not
      by_cases hyoung : young config now (.cached r created) = true
      · have hretain : (m.retain fun _ v => young config now v).lookup k = some (.cached r created) := by
          rw [AList.lookup_retain, hv, Option.filter_some, if_pos hyoung]
        unfold cleanupEntriesLocked at hgone hv'
        simp only at hgone hv'
        split at hgone
        · rename_i hover
          rw [if_pos hover] at hv'
          exact evictOldest_oldest hretain rfl hgone hv' rfl
        · rw [hretain] at hgone
          cases hgone
      · have hyoung' := (cleanup_sub hv').2
        simp only [young, decide_eq_true_eq] at hyoung hyoung'
        exact Int.le_trans (Int.not_lt.mp hyoung) (Int.le_of_lt hyoung')

end

/-! ## The invariant -/

section
variable {R : Type} {config : Config} {t t' : Table R} {k : TxnKey} {channel : Nat}

/-- The outstanding results are those of the active entries, within the limits, and
cached responses are those given last. -/
structure Table.Sound (config : Config) (t : Table R) : Prop where
  holders : ∀ k channel, (k, channel) ∈ t.outstanding ↔ t.service.federationTxnState.lookup k =
    some (.active channel)
  distinct : t.outstanding.Nodup
  active : activeCount t.service.federationTxnState ≤ config.maxConcurrentInboundTransactions
  origins : ∀ origin, activeFromOrigin t.service.federationTxnState origin ≤
    config.maxConcurrentInboundTransactionsPerOrigin
  answers : ∀ k r created, t.service.federationTxnState.lookup k = some (.cached r created) → t.finished k = some r

theorem any_isActive (v : Option (TxnState R)) : v.any (·.isActive) = true ↔ ∃ c, v = some (.active c) := by
  cases v with
  | none => simp
  | some v => cases v <;> simp [TxnState.isActive]

theorem any_activeFrom (origin : String) (v : Option (TxnState R)) :
    v.any (fun v => decide (k.origin = origin) && v.isActive) = true ↔
      k.origin = origin ∧ ∃ c, v = some (.active c) := by
  cases v with
  | none => simp
  | some v => cases v <;> simp [TxnState.isActive]

theorem activeCount_le {m m' : Txns R} (ks : List TxnKey)
    (h : ∀ k c, m'.lookup k = some (.active c) → k ∈ ks ∨ ∃ c, m.lookup k = some (.active c)) :
    activeCount m' ≤ ks.length + activeCount m := by
  refine AList.count_le ks fun k hk => ?_
  obtain ⟨c, hc⟩ := (any_isActive _).mp hk
  exact (h k c hc).imp_right (any_isActive _).mpr

theorem activeFromOrigin_le {m m' : Txns R} (ks : List TxnKey) (origin : String)
    (h : ∀ k c, k.origin = origin → m'.lookup k = some (.active c) → k ∈ ks ∨ ∃ c, m.lookup k = some (.active c)) :
    activeFromOrigin m' origin ≤ ks.length + activeFromOrigin m origin := by
  refine AList.count_le ks fun k hk => ?_
  obtain ⟨ho, c, hc⟩ := (any_activeFrom origin _).mp hk
  exact (h k c ho hc).imp_right fun hm => (any_activeFrom origin _).mpr ⟨ho, hm⟩

theorem Table.Sound.of_stopped (h : t.Sound config)
    (hstop : ∀ k c, t'.service.federationTxnState.lookup k = some (.active c) →
      t.service.federationTxnState.lookup k = some (.active c))
    (hh : ∀ k c, (k, c) ∈ t'.outstanding ↔ t'.service.federationTxnState.lookup k = some (.active c))
    (hd : t'.outstanding.Nodup)
    (ha : ∀ k r c, t'.service.federationTxnState.lookup k = some (.cached r c) → t'.finished k = some r) :
    t'.Sound config where
  holders := hh
  distinct := hd
  active := by
    have hle := activeCount_le [] fun k c hc => .inr ⟨c, hstop k c hc⟩
    rw [List.length_nil, Nat.zero_add] at hle
    exact hle.trans h.active
  origins origin := by
    have hle := activeFromOrigin_le [] origin fun k c _ hc => .inr ⟨c, hstop k c hc⟩
    rw [List.length_nil, Nat.zero_add] at hle
    exact hle.trans (h.origins origin)
  answers := ha

/-- Active entries stay, and cached ones stay or go. -/
structure Kept (m m' : Txns R) : Prop where
  active : ∀ k c, m.lookup k = some (.active c) → m'.lookup k = some (.active c)
  sub : ∀ k v, m'.lookup k = some v → m.lookup k = some v

theorem Kept.clear (m : Txns R) : Kept m (clear m) := by
  refine ⟨fun k c h => ?_, fun k v h => ?_⟩
  · rw [lookup_clear, h]
    rfl
  · rw [lookup_clear, Option.filter_eq_some_iff] at h
    exact h.1

theorem Kept.cleanup (config : Config) (now : SystemTime) (m : Txns R) : Kept m
    (cleanupEntriesLocked config now m) :=
  ⟨fun _ _ h => cleanup_active h, fun _ _ h => (cleanup_sub h).1⟩

theorem Table.Sound.of_kept (h : t.Sound config) {m : Txns R} (hm : Kept t.service.federationTxnState m) :
    Table.Sound config { t with service := { t.service with federationTxnState := m } } := by
  refine h.of_stopped (fun k c hc => hm.sub k _ hc) (fun k c => ?_) h.distinct fun k r c hc =>
    h.answers k r c (hm.sub k _ hc)
  exact (h.holders k c).trans ⟨hm.active k c, hm.sub k _⟩

theorem Table.Sound.of_ended (h : t.Sound config) (hk : (k, channel) ∈ t.outstanding)
    (hout : t'.outstanding = t.outstanding.erase (k, channel))
    (hgone : ∀ c, t'.service.federationTxnState.lookup k ≠ some (.active c))
    (hactive : ∀ k' c, k' ≠ k → (t'.service.federationTxnState.lookup k' = some (.active c) ↔
      t.service.federationTxnState.lookup k' = some (.active c)))
    (ha : ∀ k r c, t'.service.federationTxnState.lookup k = some (.cached r c) → t'.finished k = some r) :
    t'.Sound config := by
  have hne : ∀ k' c, t'.service.federationTxnState.lookup k' = some (.active c) → k' ≠ k := by
    rintro k' c hc rfl
    exact hgone c hc
  refine h.of_stopped (fun k' c hc => (hactive k' c (hne k' c hc)).mp hc) (fun k' c => ?_) ?_ ha
  · rw [hout, h.distinct.mem_erase_iff, h.holders]
    by_cases hkk : k' = k
    · subst hkk
      refine ⟨fun ⟨hother, hc⟩ => ?_, fun hc => absurd hc (hgone c)⟩
      rw [(h.holders k' channel).mp hk, Option.some.injEq] at hc
      cases hc
      exact absurd rfl hother
    · rw [hactive k' c hkk]
      exact ⟨fun hc => hc.2, fun hc => ⟨fun heq => hkk (Prod.mk.inj heq).1, hc⟩⟩
  · rw [hout]
    exact h.distinct.erase _

theorem lookup_insert_eq (m : Txns R) (k k' : TxnKey) (v : TxnState R) :
    (m.insert k v).lookup k' = if k' = k then some v else m.lookup k' := by
  by_cases h : k' = k
  · rw [h, AList.lookup_insert, if_pos rfl]
  · rw [AList.lookup_insert_ne h, if_neg h]

theorem finish_sound (h : t.Sound config) (hk : (k, channel) ∈ t.outstanding) (response : R) (times : Service.Times)
    (overtaken : Bool) :
    Table.Sound config ⟨t.service.finishFederationTxn config k channel response times overtaken,
      t.outstanding.erase (k, channel), Function.update t.finished k (some response)⟩ := by
  have hsame : (t.service.shouldTryCleanup times.secs overtaken).2.federationTxnState =
      t.service.federationTxnState := by
    unfold Service.shouldTryCleanup
    split <;> rfl
  -- the map after the response is stored, and cleaned up or not
  have hkept : Kept (t.service.federationTxnState.insert k (.cached response times.created))
      (t.service.finishFederationTxn config k channel response times overtaken).federationTxnState := by
    simp only [Service.finishFederationTxn, hsame]
    split
    · exact Kept.cleanup _ _ _
    · exact ⟨fun _ _ hc => hc, fun _ _ hc => hc⟩
  refine h.of_ended hk rfl (fun c hc => ?_) (fun k' c hne => ?_) fun k' r c hc => ?_
  · have hsub := hkept.sub k _ hc
    rw [AList.lookup_insert] at hsub
    cases hsub
  · refine ⟨fun hc => ?_, fun hc => hkept.active k' c ?_⟩
    · have hsub := hkept.sub k' _ hc
      rwa [AList.lookup_insert_ne hne] at hsub
    · rwa [AList.lookup_insert_ne hne]
  · have hsub := hkept.sub k' _ hc
    rw [lookup_insert_eq] at hsub
    by_cases hkk : k' = k
    · rw [if_pos hkk] at hsub
      cases hsub
      rw [hkk]
      exact Function.update_self _ _ _
    · rw [if_neg hkk] at hsub
      show Function.update t.finished k (some response) k' = some r
      rw [Function.update_of_ne hkk]
      exact h.answers k' r c hsub

theorem fail_sound (h : t.Sound config) (hk : (k, channel) ∈ t.outstanding) (err : TransactionError) :
    Table.Sound config { t with
      service := t.service.failFederationTxn k channel err
      outstanding := t.outstanding.erase (k, channel) } := by
  have hmap : (t.service.failFederationTxn k channel err).federationTxnState =
      t.service.federationTxnState.erase k := rfl
  refine h.of_ended hk rfl (fun c hc => ?_) (fun k' c hne => ?_) fun k' r c hc => ?_
  · rw [hmap, AList.lookup_erase] at hc
    cases hc
  · rw [hmap, AList.lookup_erase_ne hne]
  · rw [hmap, AList.lookup_erase_eq] at hc
    split at hc
    · cases hc
    · exact h.answers k' r c hc

theorem start_sound (h : t.Sound config) (hnone : t.service.federationTxnState.lookup k = none)
    (horigin : activeFromOrigin t.service.federationTxnState k.origin <
      config.maxConcurrentInboundTransactionsPerOrigin)
    (hactive : activeCount t.service.federationTxnState < config.maxConcurrentInboundTransactions)
    {service : Service R}
    (hs : service.federationTxnState = t.service.federationTxnState.insert k (.active channel)) :
    Table.Sound config { t with service := service, outstanding := (k, channel) :: t.outstanding } := by
  -- the new entry is the only one more, and the limits were checked before
  have hstarted : ∀ k' c, service.federationTxnState.lookup k' = some (.active c) →
      k' ∈ [k] ∨ ∃ c, t.service.federationTxnState.lookup k' = some (.active c) := by
    intro k' c hc
    rw [hs, lookup_insert_eq] at hc
    split at hc
    · rename_i hkk
      exact .inl (by simp [hkk])
    · exact .inr ⟨c, hc⟩
  refine ⟨fun k' c => ?_, ?_, ?_, fun origin => ?_, fun k' r c hc => ?_⟩
  · show (k', c) ∈ (k, channel) :: t.outstanding ↔ service.federationTxnState.lookup k' = some (.active c)
    rw [List.mem_cons, h.holders, hs, lookup_insert_eq]
    by_cases hkk : k' = k
    · subst hkk
      rw [if_pos rfl, hnone]
      simp [eq_comm]
    · simp [hkk]
  · refine List.nodup_cons.mpr ⟨fun hmem => ?_, h.distinct⟩
    rw [(h.holders k channel).mp hmem] at hnone
    cases hnone
  · have hle := activeCount_le [k] hstarted
    rw [List.length_singleton] at hle
    show activeCount service.federationTxnState ≤ _
    omega
  · show activeFromOrigin service.federationTxnState origin ≤ _
    by_cases ho : k.origin = origin
    · subst ho
      have hle := activeFromOrigin_le [k] k.origin fun k' c _ hc => hstarted k' c hc
      rw [List.length_singleton] at hle
      omega
    · have hle := activeFromOrigin_le [] origin fun k' c ho' hc => by
        rcases hstarted k' c hc with hkk | hm
        · exact absurd (List.mem_singleton.mp hkk ▸ ho') ho
        · exact .inr hm
      rw [List.length_nil, Nat.zero_add] at hle
      exact hle.trans (h.origins origin)
  · have hc' : service.federationTxnState.lookup k' = some (.cached r c) := hc
    rw [hs, lookup_insert_eq] at hc'
    split at hc'
    · cases hc'
    · exact h.answers k' r c hc'

theorem getOrStart_sound (h : t.Sound config) (k : TxnKey) :
    Table.Sound config { t with
      service := (t.service.getOrStartFederationTxn config k).2
      outstanding := Table.started k t.outstanding (t.service.getOrStartFederationTxn config k).1 } := by
  unfold Service.getOrStartFederationTxn
  split
  · exact h
  · exact h
  · rename_i hnone
    split
    · exact h
    · rename_i horigin
      split
      · exact h
      · rename_i hserver
        refine start_sound h hnone (by omega) ?_ rfl
        by_contra hfull
        have hlen : activeCount t.service.federationTxnState ≤ t.service.federationTxnState.entries.length :=
          List.countP_le_length
        exact hserver ⟨by omega, by omega⟩

theorem step_sound [DecidableEq R] {a : Action R} (h : t.Sound config) (hs : t.step config a = some t') :
    t'.Sound config := by
  cases a with
  | getOrStart key =>
    cases hs
    exact getOrStart_sound h key
  | finish key channel response times overtaken =>
    simp only [Table.step] at hs
    split at hs
    · rename_i hk
      cases hs
      exact finish_sound h hk response times overtaken
    · cases hs
  | fail key channel err =>
    simp only [Table.step] at hs
    split at hs
    · rename_i hk
      cases hs
      exact fail_sound h hk err
    · cases hs
  | clearCache =>
    cases hs
    exact h.of_kept (Kept.clear _)
  | cleanup now =>
    cases hs
    exact h.of_kept (Kept.cleanup _ _ _)
  | rehash m =>
    simp only [Table.step] at hs
    split at hs
    · rename_i hp
      cases hs
      have hl : ∀ k, m.lookup k = t.service.federationTxnState.lookup k := fun k => AList.perm_lookup hp
      exact h.of_kept ⟨fun k c hc => (hl k).trans hc, fun k v hv => (hl k).symm.trans hv⟩
    · cases hs

theorem new_sound : (Table.new : Table R).Sound config := by
  refine ⟨fun k c => ?_, List.nodup_nil, Nat.zero_le _, fun _ => Nat.zero_le _, fun k r c hc => ?_⟩
  · constructor <;> intro h <;> cases h
  · cases hc

end

/-- For every sequence of calls and any limits: there is at most one outstanding result
for a key, the active entries are within the limits, a cached answer is the response of
the last finish of its key, clearing and cleaning up keep active entries, and after a
cleanup the cached entries are within their limit and none that went is newer than one
that stayed. -/
theorem transactions_sound {R : Type} [DecidableEq R] (config : Config) {t : Table R}
    (hrun : Reaches (fun a t => Table.step config t a) (fun _ _ => True) Table.new t) :
    (t.outstanding.map (·.1)).Nodup ∧
      activeCount t.service.federationTxnState ≤ config.maxConcurrentInboundTransactions ∧
      (∀ origin, activeFromOrigin t.service.federationTxnState origin ≤
        config.maxConcurrentInboundTransactionsPerOrigin) ∧
      (∀ k r, (t.service.getOrStartFederationTxn config k).1 = .ok (.cached r) → t.finished k = some r) ∧
      (∀ (m : Txns R) (now : SystemTime) k c, m.lookup k = some (.active c) →
        (clear m).lookup k = some (.active c) ∧ (cleanupEntriesLocked config now m).lookup k = some (.active c)) ∧
      ∀ (m : Txns R) (now : SystemTime),
        cachedCount (cleanupEntriesLocked config now m) ≤ config.transactionIdCacheMaxEntries ∧
          ∀ k r created k' r' created', m.lookup k = some (.cached r created) →
            (cleanupEntriesLocked config now m).lookup k = none →
            (cleanupEntriesLocked config now m).lookup k' = some (.cached r' created') → created ≤ created' := by
  have hsound : t.Sound config := Reaches.invariant new_sound (fun _ _ _ h _ hs => step_sound h hs) hrun
  refine ⟨?_, hsound.active, hsound.origins, fun k r hr => ?_, fun m now k c hc => ⟨(Kept.clear m).active k c hc,
    cleanup_active hc⟩, fun m now => ⟨cachedCount_cleanup_le config now m,
    fun k r created k' r' created' hv hgone hv' => cleanup_oldest hv rfl hgone hv' rfl⟩⟩
  · refine hsound.distinct.map_on fun a ha b hb hab => ?_
    obtain ⟨k, c⟩ := a
    obtain ⟨k', c'⟩ := b
    cases hab
    have hc := (hsound.holders k c).mp ha
    rw [(hsound.holders k c').mp hb, Option.some.injEq] at hc
    cases hc
    rfl
  · unfold Service.getOrStartFederationTxn at hr
    split at hr
    · rename_i response created hl
      cases hr
      exact hsound.answers k _ created hl
    · cases hr
    · split at hr
      · cases hr
      · split at hr <;> cases hr

/-- A transaction is started and finished while another of its origin is refused; asked
for again, it has its cached response. -/
theorem finished_transaction_answered :
    let config : Config := ⟨1, 1, 10, 1⟩
    let k : TxnKey := ⟨"b", "1"⟩
    ∃ t : Table Nat, runWhile (fun a t => Table.step config t a) (fun _ _ => True)
        [.getOrStart k, .getOrStart ⟨"b", "2"⟩, .finish k 0 7 ⟨60, 5, 6⟩ false, .getOrStart k] Table.new = some t ∧
      (t.service.getOrStartFederationTxn config k).1 = .ok (.cached 7) ∧ t.finished k = some 7 := by
  intro config k
  have hrun : (runWhile (fun a t => Table.step config t a) (fun _ _ => True)
      [.getOrStart k, .getOrStart ⟨"b", "2"⟩, .finish k 0 7 ⟨60, 5, 6⟩ false, .getOrStart k]
      (Table.new : Table Nat)).map (fun t => (t.service.getOrStartFederationTxn config k).1) =
        some (.ok (.cached 7)) := by
    decide
  obtain ⟨t, ht, hcached⟩ := Option.map_eq_some_iff.mp hrun
  obtain ⟨-, -, -, hanswer, -⟩ := transactions_sound config (Reaches.of_runWhile _ .init ht)
  exact ⟨t, ht, hcached, hanswer k 7 hcached⟩

end Congruent.Transactions
