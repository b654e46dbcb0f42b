import Congruent.OneTimeKeys

/-!
# Each one-time key once

As long as the map of locks keeps its keys apart, two claims of a device are never both
between their look at the rows and the removal of one.
-/

namespace Congruent.OneTimeKeys

open DeviceKeyUpdates (nextCountBatch nextCountBatch_eq_some)

/-- The lock of a claim. -/
def Stage.ref : Stage → Option Nat
  | .wait i => some i
  | .scan i => some i
  | .remove i _ _ => some i
  | .fallback i => some i
  | .mark i _ _ => some i
  | .returning i _ => some i
  | .leaving i => some i
  | _ => none

/-- The claim holds the lock. -/
def Stage.critical : Stage → Bool
  | .scan _ => true
  | .remove .. => true
  | .fallback _ => true
  | .mark .. => true
  | .returning .. => true
  | _ => false

def Key.count (key : Key) : Nat := (ofLex (ofLex key).2).1

def World.hasRow (s : World) (key : Key) : Prop := ∃ value, (key, value) ∈ s.onetimekeyidOnetimekeys

structure Rows (s : World) : Prop where
  rows : ∀ key, s.hasRow key ↔ key ∈ s.uploaded ∧ key ∉ s.taken
  taken : s.taken.Nodup ∧ ∀ key ∈ s.taken, key ∈ s.uploaded
  counts : ∀ key ∈ s.uploaded, key.count ≤ s.counter
  puts : ∀ u ∈ s.uploads, ∀ count, u.stage = .put count → count ≤ s.counter ∧ ∀ key ∈ s.uploaded, key.count ≠ count
  apart : ∀ (i j : Nat) (u v : Upload), s.uploads[i]? = some u → s.uploads[j]? = some v →
    (∃ count, u.stage = .put count ∧ v.stage = .put count) → i = j

def claimUse : MutexMap.Use String Claim where
  ref c := c.stage.ref.map fun i => (i, lockKey c.device)
  critical c := c.stage.critical

/-- Claims hold the locks they think they hold, one each, and the rows they found are there. -/
structure Locked (s : World) : Prop where
  held : MutexMap.Held claimUse s.locks s.claims
  found : ∀ c ∈ s.claims, ∀ i key value, c.stage = .remove i key value → s.hasRow key ∧ (ofLex key).1 = c.device

theorem rows_new : Rows .new where
  rows key := ⟨fun ⟨_, h⟩ => absurd h (SortedMap.not_mem_empty _), fun h => absurd h.1 List.not_mem_nil⟩
  taken := ⟨.nil, fun _ h => absurd h List.not_mem_nil⟩
  counts key h := absurd h List.not_mem_nil
  puts u h := absurd h List.not_mem_nil
  apart i j u v h := by cases h

theorem locked_new : Locked .new where
  held := MutexMap.held_new
  found _ h := absurd h List.not_mem_nil

section
variable {parses decodes : String → Bool} {flag : String → String} {s s' : World} {k : Nat} {c : Claim}

/-! ## Claims -/

theorem Locked.go (h : Locked s) (hk : s.claims[k]? = some c) {stage : Stage} {locks : MutexMap String}
    (hheld : MutexMap.Held claimUse locks (s.claims.set k { c with stage := stage }))
    (hfound : ∀ i key value, stage = .remove i key value → s.hasRow key ∧ (ofLex key).1 = c.device) :
    Locked { s.setClaim k c stage with locks := locks } where
  held := hheld
  found d hd i key value hst := by
    rcases mem_set_of_some hk hd with rfl | ⟨j, -, hj⟩
    · exact hfound i key value hst
    · exact h.found d (List.mem_of_getElem? hj) i key value hst

theorem Locked.goOn (h : Locked s) (hk : s.claims[k]? = some c) {stage : Stage}
    (href : stage.ref = c.stage.ref ∨ stage.ref = none)
    (hcrit : stage.critical = true → c.stage.critical = true ∧ stage.ref = c.stage.ref)
    (hfound : ∀ i key value, stage = .remove i key value → s.hasRow key ∧ (ofLex key).1 = c.device) :
    Locked (s.setClaim k c stage) := by
  refine h.go hk (h.held.goOn hk ?_ fun hc => ⟨(hcrit hc).1, ?_⟩) hfound
  · exact href.imp (congrArg (Option.map _)) (congrArg (Option.map _))
  · exact congrArg (Option.map _) (hcrit hc).2

theorem Locked.move (h : Locked s) (hk : s.claims[k]? = some c) {a : MutexMap.Action String}
    {locks : MutexMap String}
    {i : Nat} {stage : Stage} (hci : c.stage.ref = some i) (ha : a.index = some i)
    (hlock : MutexMap.step a s.locks = some locks) (href : stage.ref = some i ∨ stage.ref = none)
    (hcrit : stage.critical = true → a = .acquire i ∧ stage.ref = some i)
    (hfound : ∀ i key value, stage ≠ .remove i key value) : Locked
      { s.setClaim k c stage with locks := locks } := by
  rw [← hci] at href hcrit
  have hp : claimUse.ref c = some (i, lockKey c.device) := congrArg (Option.map _) hci
  refine h.go hk (h.held.move hk hp ha hlock ?_ fun hc => ⟨(hcrit hc).1, ?_⟩) fun i key value hst =>
    absurd hst (hfound i key value)
  · exact href.imp (congrArg (Option.map _)) (congrArg (Option.map _))
  · exact congrArg (Option.map _) (hcrit hc).2

theorem Locked.exclusive (h : Locked s) {j : Nat} {d : Claim} (hk : s.claims[k]? = some c)
    (hj : s.claims[j]? = some d) (hc : c.stage.critical = true) (hd : d.stage.critical = true)
    (hdevice : c.device = d.device) : k = j := by
  have href : ∀ {st : Stage}, st.critical = true → ∃ i, st.ref = some i := by
    intro st hst
    cases st <;> first | exact ⟨_, rfl⟩ | cases hst
  obtain ⟨i, hi⟩ := href hc
  obtain ⟨i', hi'⟩ := href hd
  have hdref : claimUse.ref d = some (i', lockKey c.device) := by
    rw [hdevice]
    exact congrArg (Option.map _) hi'
  exact h.held.exclusive hk hj hc hd (congrArg (Option.map _) hi) hdref

theorem proceed_rows (h : Rows s) (hlocked : Locked s) (hk : s.claims[k]? = some c)
    (hs : proceed parses decodes flag k c s = some s') : Rows s' := by
  have hkeep : ∀ {t : World}, t.counter = s.counter → t.onetimekeyidOnetimekeys = s.onetimekeyidOnetimekeys →
      t.uploads = s.uploads → t.uploaded = s.uploaded → t.taken = s.taken → Rows t := by
    intro t hc hrows hup huploaded htaken
    refine ⟨?_, ?_, ?_, ?_, ?_⟩
    · simp only [World.hasRow, hrows, huploaded, htaken]
      exact h.rows
    · rw [htaken, huploaded]
      exact h.taken
    · rw [huploaded, hc]
      exact h.counts
    · rw [hup, hc, huploaded]
      exact h.puts
    · rw [hup]
      exact h.apart
  cases hstage : c.stage with
  | called =>
    simp only [proceed, hstage] at hs
    obtain ⟨count, hcount, rfl⟩ := Option.map_eq_some_iff.mp hs
    obtain ⟨rfl, -⟩ := nextCountBatch_eq_some hcount
    refine ⟨h.rows, h.taken, fun key hkey => (h.counts key hkey).trans (Nat.le_succ _), fun u hu count hst => ?_,
      h.apart⟩
    obtain ⟨hle, hfresh⟩ := h.puts u hu count hst
    exact ⟨hle.trans (Nat.le_succ _), hfresh⟩
  | remove i key value =>
    simp only [proceed, hstage, Option.some.injEq] at hs
    subst hs
    obtain ⟨hrow, -⟩ := hlocked.found c (List.mem_of_getElem? hk) i key value hstage
    obtain ⟨hup, hfree⟩ := (h.rows key).mp hrow
    refine ⟨fun key' => ?_, ⟨?_, fun key' hkey' => ?_⟩, h.counts, h.puts, h.apart⟩
    · have hremove : (World.hasRow { s with
          onetimekeyidOnetimekeys := s.onetimekeyidOnetimekeys.remove key } key') ↔ s.hasRow key' ∧ key' ≠ key := by
        simp only [World.hasRow, SortedMap.mem_remove, exists_and_right]
      refine hremove.trans ?_
      rw [h.rows key', List.mem_append, List.mem_singleton, not_or, and_assoc]
      exact Iff.rfl
    · rw [List.nodup_append]
      refine ⟨h.taken.1, List.nodup_singleton _, fun a ha b hb hab => hfree ?_⟩
      rw [← List.mem_singleton.mp hb, ← hab]
      exact ha
    · rcases List.mem_append.mp hkey' with hkey' | hkey'
      · exact h.taken.2 key' hkey'
      · exact List.mem_singleton.mp hkey' ▸ hup
  | count count =>
    simp only [proceed, hstage, Option.some.injEq] at hs
    subst hs
    exact hkeep rfl rfl rfl rfl rfl
  | lock | wait i =>
    simp only [proceed, hstage] at hs
    obtain ⟨locks, -, rfl⟩ := Option.map_eq_some_iff.mp hs
    exact hkeep rfl rfl rfl rfl rfl
  | scan i =>
    simp only [proceed, hstage] at hs
    split at hs
    · cases hs
      exact hkeep rfl rfl rfl rfl rfl
    · cases hs
      exact hkeep rfl rfl rfl rfl rfl
  | fallback i =>
    simp only [proceed, hstage] at hs
    split at hs
    all_goals
      cases hs
      exact hkeep rfl rfl rfl rfl rfl
  | mark i keyId value =>
    simp only [proceed, hstage, addFallbackKey] at hs
    split at hs
    · rename_i t ht
      split at ht
      · cases ht
        cases hs
        exact hkeep rfl rfl rfl rfl rfl
      · cases ht
    · cases hs
      exact hkeep rfl rfl rfl rfl rfl
  | returning i answer | leaving i | finished => simp only [proceed, hstage, reduceCtorEq] at hs

theorem firstKey_mem {t : Table} {device : Device} {algorithm : String} {row : Key × String}
    (h : firstKey parses decodes t device algorithm = some row) : row ∈ t ∧ (ofLex row.1).1 = device := by
  refine ⟨List.mem_of_find?_eq_some h, ?_⟩
  have hp := List.find?_some h
  simp only [Bool.and_eq_true, decide_eq_true_eq] at hp
  exact hp.1.1.1

theorem proceed_locked (h : Locked s) (hk : s.claims[k]? = some c)
    (hok : c.stage = .lock → MutexMap.apart (.lock (lockKey c.device)) s.locks = true)
    (hs : proceed parses decodes flag k c s = some s') : Locked s' := by
  have hmem := List.mem_of_getElem? hk
  -- the claim keeps the lock that it holds
  have hkeep : ∀ {stage : Stage} {i : Nat}, c.stage.ref = some i → c.stage.critical = true → stage.ref = some i →
      (∀ i key value, stage = .remove i key value → s.hasRow key ∧ (ofLex key).1 = c.device) →
      Locked (s.setClaim k c stage) := fun hci hc hst hfound =>
    h.goOn hk (.inl (hst.trans hci.symm)) (fun _ => ⟨hc, hst.trans hci.symm⟩) hfound
  cases hstage : c.stage with
  | called =>
    simp only [proceed, hstage] at hs
    obtain ⟨count, -, rfl⟩ := Option.map_eq_some_iff.mp hs
    have hgo : Locked (s.setClaim k c (.count count)) :=
      h.goOn hk (.inr rfl) (fun hc => by cases hc) fun i key value hst => by cases hst
    exact ⟨hgo.held, hgo.found⟩
  | count count =>
    simp only [proceed, hstage, Option.some.injEq] at hs
    subst hs
    have hgo : Locked (s.setClaim k c .lock) :=
      h.goOn hk (.inr rfl) (fun hc => by cases hc) fun i key value hst => by cases hst
    exact ⟨hgo.held, hgo.found⟩
  | lock =>
    simp only [proceed, hstage] at hs
    obtain ⟨locks, hlock, rfl⟩ := Option.map_eq_some_iff.mp hs
    exact h.go hk (h.held.lock hk (hok hstage) hlock rfl rfl) fun i key value hst => by cases hst
  | wait i =>
    simp only [proceed, hstage] at hs
    obtain ⟨locks, hlock, rfl⟩ := Option.map_eq_some_iff.mp hs
    exact h.move hk (by rw [hstage]; rfl) rfl hlock (.inl rfl) (fun _ => ⟨rfl, rfl⟩)
      fun i key value hst => by cases hst
  | scan i =>
    simp only [proceed, hstage] at hs
    split at hs
    · rename_i key value hfirst
      cases hs
      obtain ⟨hrow, hdevice⟩ := firstKey_mem hfirst
      refine hkeep (by rw [hstage]; rfl) (by rw [hstage]; rfl) rfl fun j key' value' hst => ?_
      cases hst
      exact ⟨⟨value, hrow⟩, hdevice⟩
    · cases hs
      exact hkeep (by rw [hstage]; rfl) (by rw [hstage]; rfl) rfl fun j key value hst => by cases hst
  | remove i key value =>
    obtain ⟨-, hdevice⟩ := h.found c hmem i key value hstage
    simp only [proceed, hstage, Option.some.injEq] at hs
    subst hs
    have hgo : Locked (s.setClaim k c (.returning i (some ((ofLex (ofLex key).2).2, value)))) :=
      hkeep (by rw [hstage]; rfl) (by rw [hstage]; rfl) rfl fun j key value hst => by cases hst
    refine ⟨hgo.held, fun d hd j key' value' hst => ?_⟩
    obtain ⟨⟨w, hw⟩, hdevice'⟩ := hgo.found d hd j key' value' hst
    refine ⟨⟨w, SortedMap.mem_remove.mpr ⟨hw, fun heq => ?_⟩⟩, hdevice'⟩
    -- another claim that found the row would hold the lock of the same device
    rcases mem_set_of_some hk hd with rfl | ⟨m, hne, hm⟩
    · cases hst
    · refine hne (h.exclusive hk hm (by rw [hstage]; rfl) (by rw [hst]; rfl) ?_).symm
      rw [← hdevice, ← hdevice']
      exact congrArg (fun key => (ofLex key).1) heq.symm
  | fallback i =>
    simp only [proceed, hstage] at hs
    split at hs
    all_goals
      cases hs
      exact hkeep (by rw [hstage]; rfl) (by rw [hstage]; rfl) rfl fun j key value hst => by cases hst
  | mark i keyId value =>
    have hgo : ∀ answer, Locked (s.setClaim k c (.returning i answer)) := fun answer =>
      hkeep (by rw [hstage]; rfl) (by rw [hstage]; rfl) rfl fun j key value hst => by cases hst
    simp only [proceed, hstage, addFallbackKey] at hs
    split at hs
    · rename_i t ht
      split at ht
      · cases ht
        cases hs
        have hmarked := hgo (fallbackAnswer flag keyId value)
        exact ⟨hmarked.held, hmarked.found⟩
      · cases ht
    · cases hs
      exact hgo _
  | returning i answer | leaving i | finished => simp only [proceed, hstage, reduceCtorEq] at hs

/-! ## Uploads -/

theorem Rows.setUpload (h : Rows s) {j : Nat} {u : Upload} (hj : s.uploads[j]? = some u) (stage : UploadStage)
    (hstage : ∀ count, stage ≠ .put count) : Rows (s.setUpload j u stage) where
  rows := h.rows
  taken := h.taken
  counts := h.counts
  puts v hv count hst := by
    rcases mem_set_of_some hj hv with rfl | ⟨i, -, hi⟩
    · exact absurd hst (hstage count)
    · exact h.puts v (List.mem_of_getElem? hi) count hst
  apart i m u' v hi hm huv := by
    refine apart_set hj (R := fun u v => ∃ count, u.stage = .put count ∧ v.stage = .put count) h.apart
      (fun l d _ _ => ⟨?_, ?_⟩) hi hm huv
    · exact fun ⟨count, hst, _⟩ => hstage count hst
    · exact fun ⟨count, _, hst⟩ => hstage count hst

theorem advance_rows (h : Rows s) {j : Nat} {u : Upload} (hj : s.uploads[j]? = some u)
    (hs : advance j u s = some s') : Rows s' := by
  cases hstage : u.stage with
  | called =>
    simp only [advance, hstage] at hs
    split at hs
    all_goals
      cases hs
      exact h.setUpload hj _ fun count => by simp
  | check =>
    simp only [advance, hstage, Option.some.injEq] at hs
    subst hs
    refine h.setUpload hj _ fun count => ?_
    split <;> simp
  | draw =>
    simp only [advance, hstage] at hs
    obtain ⟨count, hcount, rfl⟩ := Option.map_eq_some_iff.mp hs
    obtain ⟨rfl, -⟩ := nextCountBatch_eq_some hcount
    have hnew : ∀ v ∈ s.uploads, v.stage ≠ .put (s.counter + 1) := fun v hv hst =>
      absurd (h.puts v hv _ hst).1 (Nat.not_succ_le_self _)
    refine ⟨h.rows, h.taken, fun key hkey => (h.counts key hkey).trans (Nat.le_succ _), fun v hv count hst => ?_,
      fun i m a b hi hm hab => ?_⟩
    · rcases mem_set_of_some hj hv with rfl | ⟨i, -, hi⟩
      · cases hst
        exact ⟨Nat.le_refl _, fun key hkey heq => absurd (heq ▸ h.counts key hkey) (Nat.not_succ_le_self _)⟩
      · obtain ⟨hle, hfresh⟩ := h.puts v (List.mem_of_getElem? hi) count hst
        exact ⟨hle.trans (Nat.le_succ _), hfresh⟩
    · refine apart_set hj (R := fun u v => ∃ count, u.stage = .put count ∧ v.stage = .put count) h.apart
        (fun l d _ hl => ⟨?_, ?_⟩) hi hm hab
      · rintro ⟨count, hst, hd⟩
        cases hst
        exact hnew d (List.mem_of_getElem? hl) hd
      · rintro ⟨count, hd, hst⟩
        cases hst
        exact hnew d (List.mem_of_getElem? hl) hd
  | put count =>
    simp only [advance, hstage, Option.some.injEq] at hs
    subst hs
    obtain ⟨hle, hfresh⟩ := h.puts u (List.mem_of_getElem? hj) count hstage
    have hset := h.setUpload hj (.announce count) fun count => by simp
    have hkey : Key.count (toLex (u.device, toLex (count, u.keyId))) = count := rfl
    generalize (toLex (u.device, toLex (count, u.keyId)) : Key) = key at hkey ⊢
    subst hkey
    refine ⟨fun key' => ?_, ⟨h.taken.1, fun key' hk => List.mem_append_left _ (h.taken.2 key' hk)⟩,
      fun key' hk => ?_,
      fun v hv count hst => ?_, hset.apart⟩
    · have hinsert : (World.hasRow { s with
          onetimekeyidOnetimekeys := s.onetimekeyidOnetimekeys.insert key u.value } key') ↔
            key' = key ∨ s.hasRow key' := by
        simp only [World.hasRow, SortedMap.mem_insert, Prod.mk.injEq]
        constructor
        · rintro ⟨v, ⟨heq, -⟩ | ⟨hmem, -⟩⟩
          · exact .inl heq
          · exact .inr ⟨v, hmem⟩
        · rintro (heq | ⟨v, hmem⟩)
          · exact ⟨u.value, .inl ⟨heq, rfl⟩⟩
          · by_cases heq : key' = key
            · exact ⟨u.value, .inl ⟨heq, rfl⟩⟩
            · exact ⟨v, .inr ⟨hmem, heq⟩⟩
      refine hinsert.trans ?_
      rw [h.rows key', List.mem_append, List.mem_singleton]
      constructor
      · rintro (rfl | ⟨hup, hfree⟩)
        · exact ⟨.inr rfl, fun htaken => hfresh _ (h.taken.2 _ htaken) rfl⟩
        · exact ⟨.inl hup, hfree⟩
      · rintro ⟨hup | heq, hfree⟩
        · exact .inr ⟨hup, hfree⟩
        · exact .inl heq
    · rcases List.mem_append.mp hk with hk | hk
      · exact h.counts key' hk
      · exact List.mem_singleton.mp hk ▸ hle
    · obtain ⟨hle', hfresh'⟩ := hset.puts v hv count hst
      refine ⟨hle', fun key' hk heq => ?_⟩
      rcases List.mem_append.mp hk with hk | hk
      · exact hfresh' key' hk heq
      · -- no other upload has the count
        subst heq
        cases List.mem_singleton.mp hk
        rcases mem_set_of_some hj hv with rfl | ⟨i, hne, hi⟩
        · cases hst
        · exact hne (h.apart i j v u hi hj ⟨_, hst, hstage⟩)
  | announce count =>
    simp only [advance, hstage, Option.some.injEq] at hs
    subst hs
    have hset := h.setUpload hj .finished fun count => by simp
    exact ⟨hset.rows, hset.taken, hset.counts, hset.puts, hset.apart⟩
  | finished => simp only [advance, hstage, reduceCtorEq] at hs

theorem Locked.keep (h : Locked s) (hclaims : s'.claims = s.claims) (hlocks : s'.locks = s.locks)
    (hrows : ∀ key, s.hasRow key → s'.hasRow key) : Locked s' where
  held := by
    rw [hclaims, hlocks]
    exact h.held
  found c hc i key value hst := by
    obtain ⟨hrow, hdevice⟩ := h.found c (hclaims ▸ hc) i key value hst
    exact ⟨hrows key hrow, hdevice⟩

theorem advance_locked (h : Locked s) {j : Nat} {u : Upload} (hs : advance j u s = some s') : Locked s' := by
  have hput : ∀ {key : Key} {value : String} {t : World},
      t.onetimekeyidOnetimekeys = s.onetimekeyidOnetimekeys.insert key value →
      ∀ key', s.hasRow key' → t.hasRow key' := by
    rintro key value t ht key' ⟨v, hv⟩
    by_cases heq : key' = key
    · exact ⟨value, ht ▸ SortedMap.mem_insert.mpr (.inl (by rw [heq]))⟩
    · exact ⟨v, ht ▸ SortedMap.mem_insert.mpr (.inr ⟨hv, heq⟩)⟩
  cases hstage : u.stage with
  | called =>
    simp only [advance, hstage] at hs
    split at hs
    all_goals
      cases hs
      exact h.keep rfl rfl fun _ hrow => hrow
  | check | announce count =>
    simp only [advance, hstage, Option.some.injEq] at hs
    subst hs
    exact h.keep rfl rfl fun _ hrow => hrow
  | draw =>
    simp only [advance, hstage] at hs
    obtain ⟨count, -, rfl⟩ := Option.map_eq_some_iff.mp hs
    exact h.keep rfl rfl fun _ hrow => hrow
  | put count =>
    simp only [advance, hstage, Option.some.injEq] at hs
    subst hs
    exact h.keep rfl rfl (hput rfl)
  | finished => simp only [advance, hstage, reduceCtorEq] at hs

/-! ## Runs -/

def apart : Action → World → Bool
  | .proceed k, s => (s.claims[k]?).all fun c =>
      match c.stage with
      | .lock => MutexMap.apart (.lock (lockKey c.device)) s.locks
      | _ => true
  | _, _ => true

theorem leave_locked (h : Locked s) {a : Action} (ha : ∃ k, a = .leave k ∨ a = .unlist k ∨ a = .release k)
    (hs : step parses decodes flag a s = some s') : Locked s' := by
  obtain ⟨k, rfl | rfl | rfl⟩ := ha
  · obtain ⟨c, hk, hs⟩ := Option.bind_eq_some_iff.mp hs
    cases hstage : c.stage with
    | called | count count | lock =>
      simp only [hstage, Option.some.injEq] at hs
      subst hs
      exact h.goOn hk (.inr rfl) (fun hc => by cases hc) fun i key value hst => by cases hst
    | wait i =>
      simp only [hstage] at hs
      obtain ⟨locks, hlock, rfl⟩ := Option.map_eq_some_iff.mp hs
      exact h.move hk (by rw [hstage]; rfl) rfl hlock (.inr rfl) (fun hc => by cases hc)
        fun i key value hst => by cases hst
    | scan i | remove i key value | fallback i | mark i keyId value | returning i answer =>
      simp only [hstage] at hs
      obtain ⟨locks, hlock, rfl⟩ := Option.map_eq_some_iff.mp hs
      exact h.move hk (by rw [hstage]; rfl) rfl hlock (.inl rfl) (fun hc => by cases hc)
        fun i key value hst => by cases hst
    | leaving i | finished => simp only [hstage, reduceCtorEq] at hs
  · obtain ⟨c, hk, hs⟩ := Option.bind_eq_some_iff.mp hs
    cases hstage : c.stage with
    | leaving i =>
      simp only [hstage] at hs
      obtain ⟨locks, hlock, rfl⟩ := Option.map_eq_some_iff.mp hs
      exact h.move hk (by rw [hstage]; rfl) rfl hlock (.inl rfl) (fun hc => by cases hc)
        fun i key value hst => by cases hst
    | _ => simp only [hstage, reduceCtorEq] at hs
  · obtain ⟨c, hk, hs⟩ := Option.bind_eq_some_iff.mp hs
    cases hstage : c.stage with
    | leaving i =>
      simp only [hstage] at hs
      obtain ⟨locks, hlock, rfl⟩ := Option.map_eq_some_iff.mp hs
      exact h.move hk (by rw [hstage]; rfl) rfl hlock (.inr rfl) (fun hc => by cases hc)
        fun i key value hst => by cases hst
    | _ => simp only [hstage, reduceCtorEq] at hs

theorem Rows.keep (h : Rows s) (hcounter : s'.counter = s.counter)
    (hrows : s'.onetimekeyidOnetimekeys = s.onetimekeyidOnetimekeys) (huploads : s'.uploads = s.uploads)
    (huploaded : s'.uploaded = s.uploaded) (htaken : s'.taken = s.taken) : Rows s' := by
  obtain ⟨counter, metadata, rows, fallback, last, locks, claims, uploads, uploaded, taken⟩ := s'
  cases hcounter
  cases hrows
  cases huploads
  cases huploaded
  cases htaken
  exact ⟨h.rows, h.taken, h.counts, h.puts, h.apart⟩

theorem step_inv {a : Action} (h : Rows s ∧ Locked s) (hok : apart a s = true)
    (hs : step parses decodes flag a s = some s') : Rows s' ∧ Locked s' := by
  obtain ⟨hrows, hlocked⟩ := h
  cases a with
  | device device present =>
    cases hs
    exact ⟨hrows.keep rfl rfl rfl rfl rfl, hlocked.keep rfl rfl fun _ hrow => hrow⟩
  | upload device keyId value =>
    cases hs
    refine ⟨⟨hrows.rows, hrows.taken, hrows.counts, fun u hu count hst => ?_, fun i j u v hi hj huv => ?_⟩,
      hlocked.keep rfl rfl fun _ hrow => hrow⟩
    · rcases List.mem_append.mp hu with hu | hu
      · exact hrows.puts u hu count hst
      · rw [List.mem_singleton.mp hu] at hst
        cases hst
    · obtain ⟨count, hu, hv⟩ := huv
      rcases getElem?_concat hi with hi | ⟨-, rfl⟩
      · rcases getElem?_concat hj with hj | ⟨-, rfl⟩
        · exact hrows.apart i j u v hi hj ⟨count, hu, hv⟩
        · cases hv
      · cases hu
  | uploadFallback device algorithm keyId value =>
    simp only [step, addFallbackKey] at hs
    split at hs
    · cases hs
      exact ⟨hrows.keep rfl rfl rfl rfl rfl, hlocked.keep rfl rfl fun _ hrow => hrow⟩
    · cases hs
  | advance j =>
    obtain ⟨u, hj, hs⟩ := Option.bind_eq_some_iff.mp hs
    exact ⟨advance_rows hrows hj hs, advance_locked hlocked hs⟩
  | give j =>
    obtain ⟨u, hj, rfl⟩ := Option.map_eq_some_iff.mp hs
    exact ⟨hrows.setUpload hj _ fun count => by simp, hlocked.keep rfl rfl fun _ hrow => hrow⟩
  | claim device algorithm =>
    cases hs
    refine ⟨hrows.keep rfl rfl rfl rfl rfl, hlocked.held.add rfl rfl, fun c hc i key value hst => ?_⟩
    rcases List.mem_append.mp hc with hc | hc
    · exact hlocked.found c hc i key value hst
    · rw [List.mem_singleton.mp hc] at hst
      cases hst
  | proceed k =>
    obtain ⟨c, hk, hs⟩ := Option.bind_eq_some_iff.mp hs
    refine ⟨proceed_rows hrows hlocked hk hs, proceed_locked hlocked hk (fun hstage => ?_) hs⟩
    simp only [apart, hk, Option.all_some, hstage] at hok
    exact hok
  | leave k =>
    refine ⟨?_, leave_locked hlocked ⟨k, .inl rfl⟩ hs⟩
    obtain ⟨c, hk, hs⟩ := Option.bind_eq_some_iff.mp hs
    split at hs
    all_goals first
      | (cases hs; done)
      | (cases hs; exact hrows.keep rfl rfl rfl rfl rfl)
      | (obtain ⟨locks, -, rfl⟩ := Option.map_eq_some_iff.mp hs; exact hrows.keep rfl rfl rfl rfl rfl)
  | unlist k =>
    refine ⟨?_, leave_locked hlocked ⟨k, .inr (.inl rfl)⟩ hs⟩
    obtain ⟨c, hk, hs⟩ := Option.bind_eq_some_iff.mp hs
    split at hs
    · obtain ⟨locks, -, rfl⟩ := Option.map_eq_some_iff.mp hs
      exact hrows.keep rfl rfl rfl rfl rfl
    · cases hs
  | release k =>
    refine ⟨?_, leave_locked hlocked ⟨k, .inr (.inr rfl)⟩ hs⟩
    obtain ⟨c, hk, hs⟩ := Option.bind_eq_some_iff.mp hs
    split at hs
    · obtain ⟨locks, -, rfl⟩ := Option.map_eq_some_iff.mp hs
      exact hrows.keep rfl rfl rfl rfl rfl
    · cases hs

/-- Each row put is taken at most once, and is there until it is taken. -/
theorem handed_out_once (h : Reaches (step parses decodes flag) (fun a s => apart a s = true) .new s) :
    s.taken.Nodup ∧ ∀ key ∈ s.uploaded, key ∈ s.taken ∧ ¬ s.hasRow key ∨ key ∉ s.taken ∧ s.hasRow key := by
  have hinv : Rows s ∧ Locked s :=
    h.invariant (P := fun s => Rows s ∧ Locked s) ⟨rows_new, locked_new⟩
      fun _ _ _ hinv hok hs => step_inv hinv hok hs
  refine ⟨hinv.1.taken.1, fun key hkey => ?_⟩
  by_cases htaken : key ∈ s.taken
  · exact .inl ⟨htaken, fun hrow => ((hinv.1.rows key).mp hrow).2 htaken⟩
  · exact .inr ⟨htaken, (hinv.1.rows key).mpr ⟨hkey, htaken⟩⟩

end

/-- Two claims of a device at a time, of its one key and its fallback key. -/
theorem handed_out_once_two : ∃ s,
    runWhile (step (fun _ => true) (fun _ => true) id) (fun a s => apart a s = true)
      ([.device (toLex ("@u:a", "D")) true, .upload (toLex ("@u:a", "D")) "alg:A" "1",
        .uploadFallback (toLex ("@u:a", "D")) "alg" "alg:F" "2"] ++ List.replicate 5 (.advance 0) ++
        [.claim (toLex ("@u:a", "D")) "alg", .claim (toLex ("@u:a", "D")) "alg"] ++ List.replicate 4 (.proceed 0) ++
        List.replicate 3 (.proceed 1) ++ List.replicate 2 (.proceed 0) ++ [.leave 0, .release 0] ++
        List.replicate 4 (.proceed 1)) .new = some s ∧ s.taken.Nodup := by
  refine exists_of_map (fun s => s.claims.map (·.stage))
    (v := [.finished, .returning 1 (some ("alg:F", "2"))]) (by decide) fun s hs heq => ?_
  exact (handed_out_once (.of_runWhile _ .init hs)).1

-- a claim that takes the lock between the look and the removal of another gets the key twice handed out
example : (runWhile (step (fun _ => true) (fun _ => true) id) (fun _ _ => True)
    ([.device (toLex ("@u:a", "D")) true, .upload (toLex ("@u:a", "D")) "alg:A" "1"] ++
      List.replicate 5 (.advance 0) ++
      [.claim (toLex ("@u:a", "D")) "b", .claim (toLex ("@u:a", "D")) "alg", .claim (toLex ("@u:a", "D")) "alg"] ++
      List.replicate 6 (.proceed 0) ++ List.replicate 2 (.proceed 1) ++
      [.leave 0, .proceed 1, .unlist 0, .release 0] ++
      List.replicate 2 (.proceed 1) ++ List.replicate 5 (.proceed 2) ++ [.proceed 1, .proceed 2]) .new).map
    (fun s => s.taken.map fun key => Key.count key) = some [1, 1] := by
  decide

end Congruent.OneTimeKeys
