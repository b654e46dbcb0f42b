import Congruent.ServerKeys

/-!
# The historical key record

What one payload does to the records of its origin, key id by key id, and from
it the shape of the record after any sequence of payloads.
-/

namespace Congruent

/-! ## The collision loops -/

def conflicts (historical : ServerSigningKeys) (id : KeyId) (key : String) : Bool :=
  (firstSeen historical id).any fun b => b != key

def overrides (historical : ServerSigningKeys) (provisional : Finset KeyId) (source : FetchSource) (id : KeyId)
    (key : String) : Bool :=
  decide (source = .direct) && decide (id ∈ provisional) &&
    (historical.verifyKeys.lookup id).any fun k => k.key != key

section
variable {historical : ServerSigningKeys} {source : FetchSource} {enforceFsw : Bool}

theorem firstSeen_of_active {id : KeyId} {k : VerifyKey} (h : historical.verifyKeys.lookup id = some k) :
    firstSeen historical id = some k.key := by
  simp [firstSeen, h]

theorem firstSeen_of_retired {id : KeyId} (h : historical.verifyKeys.lookup id = none) :
    firstSeen historical id = (historical.oldVerifyKeys.lookup id).map fun k => k.key := by
  simp [firstSeen, h]

theorem checkActive_eq (f : Filtered) (e : Σ _ : KeyId, VerifyKey) :
    checkActive historical source enforceFsw f e =
      if overrides historical f.provisional source e.1 e.2.key then
        { f with provisional := f.provisional.erase e.1 }
      else if enforceFsw && conflicts historical e.1 e.2.key then
        { f with rejectedCollision := true, verifyKeys := f.verifyKeys.erase e.1 }
      else f := by
  unfold checkActive
  cases hv : historical.verifyKeys.lookup e.1 with
  | some k =>
    rw [conflicts, firstSeen_of_active hv]
    by_cases hk : k.key = e.2.key
    · simp [hk, overrides, hv]
    · simp [hk, overrides, hv]
  | none =>
    rw [conflicts, firstSeen_of_retired hv]
    cases ho : historical.oldVerifyKeys.lookup e.1 with
    | some k =>
      by_cases hk : k.key = e.2.key
      · simp [hk, overrides, hv]
      · simp [hk, overrides, hv]
    | none => simp [overrides, hv]

theorem checkRetired_eq (f : Filtered) (e : Σ _ : KeyId, OldVerifyKey) :
    checkRetired historical enforceFsw f e =
      if enforceFsw && conflicts historical e.1 e.2.key then
        { f with rejectedCollision := true, oldVerifyKeys := f.oldVerifyKeys.erase e.1 }
      else f := by
  unfold checkRetired
  cases hv : historical.verifyKeys.lookup e.1 with
  | some k =>
    rw [conflicts, firstSeen_of_active hv]
    by_cases hk : k.key = e.2.key
    · simp [hk]
    · simp [hk]
  | none =>
    rw [conflicts, firstSeen_of_retired hv]
    cases ho : historical.oldVerifyKeys.lookup e.1 with
    | some k =>
      by_cases hk : k.key = e.2.key
      · simp [hk]
      · simp [hk]
    | none => simp

/-- An active key of the payload is kept out of the record. -/
def blocked (historical : ServerSigningKeys) (provisional : Finset KeyId) (source : FetchSource)
    (enforceFsw : Bool) (id : KeyId) (key : String) : Bool :=
  enforceFsw && conflicts historical id key && !overrides historical provisional source id key

section
variable (f : Filtered) (e : Σ _ : KeyId, VerifyKey) (id : KeyId)

theorem checkActive_verifyKeys : (checkActive historical source enforceFsw f e).verifyKeys.lookup id =
    if decide (e.1 = id) && blocked historical f.provisional source enforceFsw e.1 e.2.key then none
    else f.verifyKeys.lookup id := by
  rw [checkActive_eq, blocked]
  cases overrides historical f.provisional source e.1 e.2.key
  · by_cases hc : (enforceFsw && conflicts historical e.1 e.2.key) = true
    · simp [hc, AList.lookup_erase_eq, eq_comm]
    · simp [hc]
  · simp

theorem checkActive_oldVerifyKeys :
    (checkActive historical source enforceFsw f e).oldVerifyKeys = f.oldVerifyKeys := by
  rw [checkActive_eq]
  split
  · rfl
  · split <;> rfl

theorem mem_checkActive_provisional : id ∈ (checkActive historical source enforceFsw f e).provisional ↔
    id ∈ f.provisional ∧
      (decide (e.1 = id) && overrides historical f.provisional source e.1 e.2.key) = false := by
  rw [checkActive_eq]
  cases hb : overrides historical f.provisional source e.1 e.2.key
  · by_cases hc : (enforceFsw && conflicts historical e.1 e.2.key) = true
    · simp [hc]
    · simp [hc]
  · simp [and_comm, eq_comm]

theorem checkActive_rejectedCollision : (checkActive historical source enforceFsw f e).rejectedCollision =
    (f.rejectedCollision || blocked historical f.provisional source enforceFsw e.1 e.2.key) := by
  rw [checkActive_eq, blocked]
  cases overrides historical f.provisional source e.1 e.2.key
  · by_cases hc : (enforceFsw && conflicts historical e.1 e.2.key) = true
    · simp [hc]
    · simp [hc]
  · simp

end

variable (historical source enforceFsw) in
/-- The loop over active keys, id by id. Each round asks the provisional set
about its own id only, so it may as well be asked at the start. -/
theorem foldl_checkActive (P : Finset KeyId) :
    ∀ (l : List (Σ _ : KeyId, VerifyKey)) (f : Filtered), l.NodupKeys →
      (∀ e ∈ l, e.1 ∈ f.provisional ↔ e.1 ∈ P) →
      (∀ id, (l.foldl (checkActive historical source enforceFsw) f).verifyKeys.lookup id =
        if l.any fun e => decide (e.1 = id) && blocked historical P source enforceFsw e.1 e.2.key then none
        else f.verifyKeys.lookup id) ∧
      (l.foldl (checkActive historical source enforceFsw) f).oldVerifyKeys = f.oldVerifyKeys ∧
      (∀ id, id ∈ (l.foldl (checkActive historical source enforceFsw) f).provisional ↔ id ∈ f.provisional ∧
        (l.any fun e => decide (e.1 = id) && overrides historical P source e.1 e.2.key) = false) ∧
      (l.foldl (checkActive historical source enforceFsw) f).rejectedCollision =
        (f.rejectedCollision || l.any fun e => blocked historical P source enforceFsw e.1 e.2.key)
  | [], f, _, _ => by simp
  | e :: l, f, hn, hP => by
    obtain ⟨he, hl⟩ := List.nodupKeys_cons.mp hn
    have hov : overrides historical f.provisional source e.1 e.2.key = overrides historical P
        source e.1 e.2.key := by
      simp [overrides, hP e (by simp)]
    have hbl : blocked historical f.provisional source enforceFsw e.1 e.2.key =
        blocked historical P source enforceFsw e.1 e.2.key := by
      rw [blocked, hov, blocked]
    have hstep : ∀ e' ∈ l, e'.1 ∈ (checkActive historical source enforceFsw f e).provisional ↔ e'.1 ∈ P := by
      intro e' he'
      have hne : e.1 ≠ e'.1 := by
        intro h
        exact he (h ▸ List.mem_keys_of_mem he')
      rw [← hP e' (by simp [he']), mem_checkActive_provisional]
      simp [hne]
    obtain ⟨hv, ho, hp, hr⟩ := foldl_checkActive P l (checkActive historical source enforceFsw f e) hl hstep
    rw [List.foldl_cons]
    refine ⟨fun id => ?_, ?_, fun id => ?_, ?_⟩
    · rw [hv, checkActive_verifyKeys, hbl, List.any_cons]
      by_cases h : (decide (e.1 = id) && blocked historical P source enforceFsw e.1 e.2.key) = true
      · simp only [h, Bool.true_or, if_true, ite_self]
      · simp only [h, Bool.false_or, if_false, Bool.false_eq_true]
    · rw [ho, checkActive_oldVerifyKeys]
    · rw [hp, mem_checkActive_provisional, hov, List.any_cons, Bool.or_eq_false_iff, and_assoc]
    · rw [hr, checkActive_rejectedCollision, hbl, List.any_cons, Bool.or_assoc]

section
variable (f : Filtered) (e : Σ _ : KeyId, OldVerifyKey) (id : KeyId)

theorem checkRetired_oldVerifyKeys : (checkRetired historical enforceFsw f e).oldVerifyKeys.lookup id =
    if decide (e.1 = id) && (enforceFsw && conflicts historical e.1 e.2.key) then none
    else f.oldVerifyKeys.lookup id := by
  rw [checkRetired_eq]
  by_cases hc : (enforceFsw && conflicts historical e.1 e.2.key) = true
  · simp [hc, AList.lookup_erase_eq, eq_comm]
  · simp [hc]

theorem checkRetired_other : (checkRetired historical enforceFsw f e).verifyKeys = f.verifyKeys ∧
    (checkRetired historical enforceFsw f e).provisional = f.provisional ∧
    (checkRetired historical enforceFsw f e).rejectedCollision =
      (f.rejectedCollision || (enforceFsw && conflicts historical e.1 e.2.key)) := by
  rw [checkRetired_eq]
  by_cases hc : (enforceFsw && conflicts historical e.1 e.2.key) = true
  · simp [hc]
  · simp [hc]

end

variable (historical enforceFsw) in
theorem foldl_checkRetired :
    ∀ (l : List (Σ _ : KeyId, OldVerifyKey)) (f : Filtered),
      (∀ id, (l.foldl (checkRetired historical enforceFsw) f).oldVerifyKeys.lookup id =
        if l.any fun e => decide (e.1 = id) && (enforceFsw && conflicts historical e.1 e.2.key) then none
        else f.oldVerifyKeys.lookup id) ∧
      (l.foldl (checkRetired historical enforceFsw) f).verifyKeys = f.verifyKeys ∧
      (l.foldl (checkRetired historical enforceFsw) f).provisional = f.provisional ∧
      (l.foldl (checkRetired historical enforceFsw) f).rejectedCollision =
        (f.rejectedCollision || l.any fun e => enforceFsw && conflicts historical e.1 e.2.key)
  | [], f => by simp
  | e :: l, f => by
    obtain ⟨ho, hv, hp, hr⟩ := foldl_checkRetired l (checkRetired historical enforceFsw f e)
    obtain ⟨hv', hp', hr'⟩ := checkRetired_other f e
    rw [List.foldl_cons]
    refine ⟨fun id => ?_, hv.trans hv', hp.trans hp', ?_⟩
    · rw [ho, checkRetired_oldVerifyKeys, List.any_cons]
      by_cases h : (decide (e.1 = id) && (enforceFsw && conflicts historical e.1 e.2.key)) = true
      · simp only [h, Bool.true_or, if_true, ite_self]
      · simp only [h, Bool.false_or, if_false, Bool.false_eq_true]
    · rw [hr, hr', List.any_cons, Bool.or_assoc]

end

/-! ## What passes the loops -/

section
variable (historical new : ServerSigningKeys) (provisional : Finset KeyId) (source : FetchSource)
  (enforceFsw : Bool)

theorem filterCollisions_spec :
    (∀ id, (filterCollisions historical new provisional source enforceFsw).verifyKeys.lookup id =
      (new.verifyKeys.lookup id).filter fun k => !blocked historical provisional source enforceFsw id k.key) ∧
    (∀ id, (filterCollisions historical new provisional source enforceFsw).oldVerifyKeys.lookup id =
      (new.oldVerifyKeys.lookup id).filter fun k => !(enforceFsw && conflicts historical id k.key)) ∧
    (∀ id, id ∈ (filterCollisions historical new provisional source enforceFsw).provisional ↔ id ∈ provisional ∧
      ((new.verifyKeys.lookup id).any fun k => overrides historical provisional source id k.key) = false) ∧
    (filterCollisions historical new provisional source enforceFsw).rejectedCollision =
      ((new.verifyKeys.entries.any fun e => blocked historical provisional source enforceFsw e.1 e.2.key) ||
        new.oldVerifyKeys.entries.any fun e => enforceFsw && conflicts historical e.1 e.2.key) := by
  let f₀ : Filtered := { verifyKeys := new.verifyKeys, oldVerifyKeys := new.oldVerifyKeys, provisional }
  let f₁ := new.verifyKeys.entries.foldl (checkActive historical source enforceFsw) f₀
  obtain ⟨hv, ho, hp, hr⟩ := foldl_checkActive historical source enforceFsw provisional new.verifyKeys.entries f₀
    new.verifyKeys.nodupKeys fun _ _ => Iff.rfl
  obtain ⟨ho', hv', hp', hr'⟩ := foldl_checkRetired historical enforceFsw
    new.oldVerifyKeys.entries f₁
  refine ⟨fun id => ?_, fun id => ?_, fun id => ?_, ?_⟩
  · show (List.foldl _ f₁ _).verifyKeys.lookup id = _
    rw [hv', hv, AList.any_entries_key _ id fun id (k : VerifyKey) => blocked historical provisional source
      enforceFsw id k.key]
    exact Option.ite_any_none _ _
  · show (List.foldl _ f₁ _).oldVerifyKeys.lookup id = _
    rw [ho', ho, AList.any_entries_key _ id fun id (k : OldVerifyKey) => enforceFsw && conflicts
      historical id k.key]
    exact Option.ite_any_none _ _
  · show id ∈ (List.foldl _ f₁ _).provisional ↔ _
    rw [hp', hp, AList.any_entries_key _ id fun id (k : VerifyKey) => overrides historical
      provisional source id k.key]
  · show (List.foldl _ f₁ _).rejectedCollision = _
    rw [hr', hr, Bool.false_or]

end

/-! ## The merged record -/

def ServerSigningKeys.Lists (keys : ServerSigningKeys) (id : KeyId) : Prop :=
  (∃ k, keys.verifyKeys.lookup id = some k) ∨ ∃ k, keys.oldVerifyKeys.lookup id = some k

theorem ServerSigningKeys.mem_ids {keys : ServerSigningKeys} {id : KeyId} : id ∈ keys.ids ↔ keys.Lists id := by
  simp only [ids, Lists, Finset.mem_union, List.mem_toFinset, ← AList.mem_keys, ← AList.lookup_isSome,
    Option.isSome_iff_exists]

section
variable {historical new : ServerSigningKeys} {f : Filtered} {now : Nat} {enforceFsw : Bool} {id : KeyId}

theorem mergeKeys_verifyKeys : (mergeKeys historical new f now enforceFsw).verifyKeys.lookup id =
    (f.verifyKeys.lookup id).or ((historical.verifyKeys.lookup id).filter fun _ =>
      (f.oldVerifyKeys.lookup id).isNone && (f.rejectedCollision || (new.verifyKeys.lookup id).isSome)) := by
  simp only [mergeKeys, retiredByOmission, AList.lookup_union, AList.lookup_retain]
  congr 1
  cases historical.verifyKeys.lookup id <;> cases f.oldVerifyKeys.lookup id <;> cases f.rejectedCollision <;>
    cases new.verifyKeys.lookup id <;> simp [Option.filter]

theorem mergeKeys_verifyKeys_cases {k : VerifyKey}
    (h : (mergeKeys historical new f now enforceFsw).verifyKeys.lookup id = some k) :
    f.verifyKeys.lookup id = some k ∨
      (f.verifyKeys.lookup id = none ∧ historical.verifyKeys.lookup id = some k ∧ f.oldVerifyKeys.lookup id = none ∧
        (f.rejectedCollision = true ∨ ∃ k', new.verifyKeys.lookup id = some k')) := by
  rw [mergeKeys_verifyKeys, Option.or_eq_some_iff] at h
  rcases h with h | ⟨hn, h⟩
  · exact .inl h
  · obtain ⟨hk, hp⟩ := Option.filter_eq_some_iff.mp h
    simp only [Bool.and_eq_true, Option.isNone_iff_eq_none, Bool.or_eq_true, Option.isSome_iff_exists] at hp
    exact .inr ⟨hn, hk, hp.1, hp.2⟩

def retiredFrom (historical new : ServerSigningKeys) (f : Filtered) (now : Nat)
    (id : KeyId) : Option OldVerifyKey :=
  ((historical.oldVerifyKeys.lookup id).filter fun _ => (f.verifyKeys.lookup id).isNone).or
    (((historical.verifyKeys.lookup id).filter fun _ =>
      (f.oldVerifyKeys.lookup id).isNone && (!f.rejectedCollision && (new.verifyKeys.lookup id).isNone)).map
        fun v => { key := v.key, expiredTs := now })

theorem mergeKeys_oldVerifyKeys : (mergeKeys historical new f now enforceFsw).oldVerifyKeys.lookup id =
    if enforceFsw then (retiredFrom historical new f now id).or (f.oldVerifyKeys.lookup id)
    else (f.oldVerifyKeys.lookup id).or (retiredFrom historical new f now id) := by
  cases enforceFsw <;> simp [mergeKeys, retiredByOmission, retiredFrom, Option.filter_filter]

theorem retiredFrom_cases {k : OldVerifyKey} (h : retiredFrom historical new f now id = some k) :
    (historical.oldVerifyKeys.lookup id = some k ∧ f.verifyKeys.lookup id = none) ∨
      ∃ v, historical.verifyKeys.lookup id = some v ∧ k = { key := v.key, expiredTs := now } ∧
        f.rejectedCollision = false ∧ new.verifyKeys.lookup id = none := by
  rcases Option.or_eq_some_iff.mp h with h | ⟨-, h⟩
  · obtain ⟨hk, hp⟩ := Option.filter_eq_some_iff.mp h
    exact .inl ⟨hk, Option.isNone_iff_eq_none.mp hp⟩
  · obtain ⟨v, hv, rfl⟩ := Option.map_eq_some_iff.mp h
    obtain ⟨hv, hp⟩ := Option.filter_eq_some_iff.mp hv
    simp only [Bool.and_eq_true, Bool.not_eq_true', Option.isNone_iff_eq_none] at hp
    exact .inr ⟨v, hv, rfl, hp.2⟩

theorem mergeKeys_oldVerifyKeys_cases {k : OldVerifyKey}
    (h : (mergeKeys historical new f now enforceFsw).oldVerifyKeys.lookup id = some k) :
    retiredFrom historical new f now id = some k ∨ f.oldVerifyKeys.lookup id = some k := by
  rw [mergeKeys_oldVerifyKeys] at h
  split at h
  · rcases Option.or_eq_some_iff.mp h with h | ⟨-, h⟩
    · exact .inl h
    · exact .inr h
  · rcases Option.or_eq_some_iff.mp h with h | ⟨-, h⟩
    · exact .inr h
    · exact .inl h

theorem mergeKeys_lists : (mergeKeys historical new f now enforceFsw).Lists id ↔
    historical.Lists id ∨ (∃ k, f.verifyKeys.lookup id = some k) ∨ ∃ k, f.oldVerifyKeys.lookup id = some k := by
  simp only [ServerSigningKeys.Lists, ← Option.isSome_iff_exists, mergeKeys_verifyKeys, mergeKeys_oldVerifyKeys,
    retiredFrom]
  cases enforceFsw <;> cases historical.verifyKeys.lookup id <;> cases historical.oldVerifyKeys.lookup id <;>
    cases f.verifyKeys.lookup id <;> cases f.oldVerifyKeys.lookup id <;> cases f.rejectedCollision <;>
    cases new.verifyKeys.lookup id <;> simp [Option.filter]

end

/-! ## Eviction -/

def keptBefore (corroborated : Finset KeyId) (a b : Σ _ : KeyId, OldVerifyKey) : Prop :=
  (a.1 ∈ corroborated ∧ b.1 ∉ corroborated) ∨ ((a.1 ∈ corroborated ↔ b.1 ∈ corroborated) ∧ byRecency a b)

instance (corroborated : Finset KeyId) : DecidableRel (keptBefore corroborated) := fun a b =>
  inferInstanceAs (Decidable ((a.1 ∈ corroborated ∧ b.1 ∉ corroborated) ∨
    ((a.1 ∈ corroborated ↔ b.1 ∈ corroborated) ∧ byRecency a b)))

theorem byRecency_trans {a b c : Σ _ : KeyId, OldVerifyKey} (h : byRecency a b) (h' : byRecency b c) :
    byRecency a c := by
  unfold byRecency at *
  rcases h with h | ⟨h, hid⟩
  · left
    omega
  · rcases h' with h' | ⟨h', hid'⟩
    · left
      omega
    · exact .inr ⟨by omega, le_trans hid hid'⟩

theorem byRecency_total (a b : Σ _ : KeyId, OldVerifyKey) : byRecency a b ∨ byRecency b a := by
  unfold byRecency
  rcases Nat.lt_trichotomy a.2.expiredTs b.2.expiredTs with h | h | h
  · exact .inr (.inl h)
  · rcases le_total a.1 b.1 with hid | hid
    · exact .inl (.inr ⟨h.symm, hid⟩)
    · exact .inr (.inr ⟨h, hid⟩)
  · exact .inl (.inl h)

theorem byRecency_antisymm {a b : Σ _ : KeyId, OldVerifyKey} (h : byRecency a b) (h' : byRecency b a) :
    a.1 = b.1 := by
  unfold byRecency at *
  rcases h with h | ⟨h, hid⟩
  · omega
  · rcases h' with h' | ⟨h', hid'⟩
    · omega
    · exact le_antisymm hid hid'

instance : IsTrans (Σ _ : KeyId, OldVerifyKey) byRecency := ⟨fun _ _ _ => byRecency_trans⟩
instance : Std.Total byRecency := ⟨byRecency_total⟩

section
variable (old : BTreeMap KeyId OldVerifyKey) (corroborated : Finset KeyId)

theorem retentionOrder_perm : (retentionOrder old corroborated).Perm old.entries := by
  rw [retentionOrder, List.partition_eq_filter_filter]
  refine ((List.perm_insertionSort _ _).append (List.perm_insertionSort _ _)).trans ?_
  exact List.filter_append_perm _ _

theorem retentionOrder_pairwise : (retentionOrder old corroborated).Pairwise (keptBefore corroborated) := by
  rw [retentionOrder, List.partition_eq_filter_filter, List.pairwise_append]
  have htier : ∀ p : (Σ _ : KeyId, OldVerifyKey) → Bool,
      (∀ a ∈ old.entries.filter p, ∀ b ∈ old.entries.filter p, a.1 ∈ corroborated ↔ b.1 ∈ corroborated) →
      ((old.entries.filter p).insertionSort byRecency).Pairwise (keptBefore corroborated) := by
    intro p hp
    apply (List.pairwise_insertionSort byRecency _).imp_of_mem
    intro a b ha hb h
    exact .inr ⟨hp a ((List.mem_insertionSort _).mp ha) b ((List.mem_insertionSort _).mp hb), h⟩
  refine ⟨htier _ ?_, htier _ ?_, ?_⟩
  · intro a ha b hb
    simp_all
  · intro a ha b hb
    simp_all
  · intro a ha b hb
    left
    simp_all

theorem nodup_retentionOrder : (retentionOrder old corroborated).Nodup :=
  (retentionOrder_perm old corroborated).nodup_iff.mpr old.nodupKeys.nodup

theorem mem_selectOldVerifyKeysToEvict {cap : Nat} {id : KeyId} :
    id ∈ selectOldVerifyKeysToEvict old corroborated cap ↔ ∃ k, old.lookup id = some k ∧
      cap ≤ (old.entries.filter fun e => e ≠ ⟨id, k⟩ ∧ keptBefore corroborated e ⟨id, k⟩).length := by
  have hperm := retentionOrder_perm old corroborated
  have anti : ∀ a ∈ retentionOrder old corroborated, ∀ b ∈ retentionOrder old corroborated,
      keptBefore corroborated a b → keptBefore corroborated b a → a = b := by
    intro a ha b hb hab hba
    apply old.nodupKeys.eq_of_fst_eq (hperm.mem_iff.mp ha) (hperm.mem_iff.mp hb)
    rcases hab with hab | ⟨hiff, hab⟩
    · rcases hba with hba | ⟨hiff, -⟩
      · exact absurd hba.1 hab.2
      · exact absurd (hiff.mpr hab.1) hab.2
    · rcases hba with hba | ⟨-, hba⟩
      · exact absurd (hiff.mpr hba.1) hba.2
      · exact byRecency_antisymm hab hba
  have hdrop : ∀ e ∈ old.entries, e ∈ (retentionOrder old corroborated).drop cap ↔
      cap ≤ (old.entries.filter fun e' => e' ≠ e ∧ keptBefore corroborated e' e).length := by
    intro e he
    rw [Cut.mem_drop_iff cap anti (nodup_retentionOrder old corroborated)
      (retentionOrder_pairwise old corroborated) (hperm.mem_iff.mpr he), (hperm.filter _).length_eq]
  unfold selectOldVerifyKeysToEvict
  split
  · rename_i hle
    simp only [List.not_mem_nil, false_iff, not_exists, not_and, not_le]
    intro k hk
    have hmem : (⟨id, k⟩ : Σ _ : KeyId, OldVerifyKey) ∈ old.entries := AList.mem_entries_iff.mpr hk
    refine lt_of_lt_of_le (List.length_filter_lt_length_iff_exists.mpr ⟨_, hmem, by simp⟩) hle
  · simp only [List.mem_map]
    constructor
    · intro ⟨e, he, hid⟩
      have hmem := hperm.mem_iff.mp (List.mem_of_mem_drop he)
      refine ⟨e.2, AList.mem_entries_iff.mp (hid ▸ hmem), ?_⟩
      rw [← hid]
      exact (hdrop e hmem).mp he
    · intro ⟨k, hk, hcap⟩
      exact ⟨⟨id, k⟩, (hdrop _ (AList.mem_entries_iff.mpr hk)).mpr hcap, rfl⟩

theorem length_kept_le (cap : Nat) :
    (old.retain fun id _ => id ∉ selectOldVerifyKeysToEvict old corroborated cap).entries.length ≤ cap := by
  unfold selectOldVerifyKeysToEvict
  split
  · rename_i hle
    exact (AList.length_retain_le _ _).trans hle
  · have h := Cut.length_filter_notMem_drop_le (fun e : Σ _ : KeyId, OldVerifyKey => e.1)
      (retentionOrder old corroborated) cap
    rw [((retentionOrder_perm old corroborated).filter _).length_eq] at h
    exact h

end

/-! ## One call -/

section
variable {Raw : Type} {deserialize : Raw → Except String ServerSigningKeys}

/-- A call fails and changes nothing, or writes the records of the payload's
origin. -/
theorem addSigningKeys_ok {o : Observation Raw} {db db' : ServerName → KeyRecords Raw} {ret : ServerSigningKeys}
    (h : addSigningKeys deserialize o db = .ok (ret, db')) :
    ∃ keys new, deserialize o.raw = .ok keys ∧ new = dropMalformed o.nowPlusSkew keys ∧
      intraPayloadCollision new = false ∧ ret = o.returned new (db new.serverName) ∧
      db' = Function.update db new.serverName
        (o.written new (db new.serverName) (oldKeysFiltered o.nowPlusSkew keys)) := by
  unfold addSigningKeys at h
  split at h
  · cases h
  · rename_i keys hkeys
    dsimp only at h
    split at h
    · cases h
    · rename_i hc
      split at h
      · cases h
      · simp only [Except.ok.injEq, Prod.mk.injEq] at h
        exact ⟨keys, _, hkeys, rfl, by simpa using hc, h.1.symm, h.2.symm⟩

variable (deserialize) in
theorem observe_cases (db : ServerName → KeyRecords Raw) (o : Observation Raw) :
    observe deserialize db o = db ∨ ∃ keys new, deserialize o.raw = .ok keys ∧
      new = dropMalformed o.nowPlusSkew keys ∧ intraPayloadCollision new = false ∧
      observe deserialize db o = Function.update db new.serverName
        (o.written new (db new.serverName) (oldKeysFiltered o.nowPlusSkew keys)) := by
  unfold observe
  split
  · rename_i ret db' h
    obtain ⟨keys, new, hkeys, hnew, hc, -, hdb⟩ := addSigningKeys_ok h
    exact .inr ⟨keys, new, hkeys, hnew, hc, hdb⟩
  · exact .inl rfl

section
variable (o : Observation Raw) (new : ServerSigningKeys) (r : KeyRecords Raw) {id : KeyId}

theorem filtered_verifyKeys_sub {k : VerifyKey} (h : (o.filtered new r).verifyKeys.lookup id = some k) :
    new.verifyKeys.lookup id = some k := by
  rw [Observation.filtered, (filterCollisions_spec _ _ _ _ _).1] at h
  exact (Option.filter_eq_some_iff.mp h).1

theorem filtered_oldVerifyKeys_sub {k : OldVerifyKey} (h : (o.filtered new r).oldVerifyKeys.lookup id = some k) :
    new.oldVerifyKeys.lookup id = some k := by
  rw [Observation.filtered, (filterCollisions_spec _ _ _ _ _).2.1] at h
  exact (Option.filter_eq_some_iff.mp h).1

theorem written_oldVerifyKeys {keys : ServerSigningKeys} {evicted : List KeyId} {k : OldVerifyKey} :
    (keys.withoutEvicted evicted).oldVerifyKeys.lookup id = some k ↔
      keys.oldVerifyKeys.lookup id = some k ∧ id ∉ evicted := by
  simp [ServerSigningKeys.withoutEvicted, Option.filter_eq_some_iff]

end

/-! ## The shape of the records -/

def ServerSigningKeys.CrossListed (keys : ServerSigningKeys) : Prop :=
  ∃ id k k', keys.verifyKeys.lookup id = some k ∧ keys.oldVerifyKeys.lookup id = some k'

instance (keys : ServerSigningKeys) : Decidable keys.CrossListed :=
  decidable_of_iff (∃ id ∈ keys.verifyKeys.keys, (keys.oldVerifyKeys.lookup id).isSome) (by
    simp only [← AList.mem_keys, ← AList.lookup_isSome, Option.isSome_iff_exists, ServerSigningKeys.CrossListed,
      exists_and_left, exists_and_right])

def KeyRecords.Records (r : KeyRecords Raw) (id : KeyId) : Prop := ∃ h, r.historical = some h ∧ h.Lists id

structure KeyRecords.WellFormed (r : KeyRecords Raw) : Prop where
  disjoint : ∀ h, r.historical = some h → ¬ h.CrossListed
  ceiling : ∀ h, r.historical = some h → h.oldVerifyKeys.entries.length ≤ retiredKeyCeiling
  provisional : ∀ id ∈ r.provisional, r.Records id
  corroborated : ∀ id ∈ r.corroborated, r.Records id

theorem lists_historicalOr {o : Observation Raw} {new : ServerSigningKeys} {r : KeyRecords Raw} {id : KeyId} :
    (r.historicalOr o new).Lists id ↔ r.Records id := by
  unfold KeyRecords.historicalOr KeyRecords.Records
  cases r.historical with
  | none => simp [ServerSigningKeys.Lists]
  | some h => simp

theorem not_crossListed_historicalOr {o : Observation Raw} {new : ServerSigningKeys} {r : KeyRecords Raw}
    (hr : r.WellFormed) : ¬ (r.historicalOr o new).CrossListed := by
  unfold KeyRecords.historicalOr
  cases h : r.historical with
  | none => simp [ServerSigningKeys.CrossListed]
  | some k => exact hr.disjoint k h

theorem merged_not_crossListed {historical new : ServerSigningKeys} {f : Filtered} {now : Nat} {enforceFsw : Bool}
    (hv : ∀ {id k}, f.verifyKeys.lookup id = some k → new.verifyKeys.lookup id = some k)
    (ho : ∀ {id k}, f.oldVerifyKeys.lookup id = some k → new.oldVerifyKeys.lookup id = some k)
    (hh : ¬ historical.CrossListed) (hn : ¬ new.CrossListed) :
    ¬ (mergeKeys historical new f now enforceFsw).CrossListed := by
  intro ⟨id, k, k', hk, hk'⟩
  rcases mergeKeys_verifyKeys_cases hk with hk | ⟨-, hk, hnone, hrej⟩
  · rcases mergeKeys_oldVerifyKeys_cases hk' with hk' | hk'
    · rcases retiredFrom_cases hk' with ⟨-, h⟩ | ⟨v, -, -, -, h⟩
      · simp [h] at hk
      · rw [hv hk] at h
        cases h
    · exact hn ⟨id, k, k', hv hk, ho hk'⟩
  · rcases mergeKeys_oldVerifyKeys_cases hk' with hk' | hk'
    · rcases retiredFrom_cases hk' with ⟨h, -⟩ | ⟨v, -, -, hrej', h⟩
      · exact hh ⟨id, k, k', hk, h⟩
      · simp [hrej', h] at hrej
    · rw [hnone] at hk'
      cases hk'

theorem lists_withoutEvicted {keys : ServerSigningKeys} {evicted : List KeyId} {id : KeyId} (h : keys.Lists id)
    (hid : id ∉ evicted) : (keys.withoutEvicted evicted).Lists id := by
  rcases h with h | ⟨k, h⟩
  · exact .inl h
  · exact .inr ⟨k, written_oldVerifyKeys.mpr ⟨h, hid⟩⟩

section
variable {o : Observation Raw} {new : ServerSigningKeys} {r : KeyRecords Raw} {id : KeyId}

theorem not_conflicts_of_not_lists {historical : ServerSigningKeys} {key : String} (h : ¬ historical.Lists id) :
    conflicts historical id key = false := by
  simp only [ServerSigningKeys.Lists, not_or, not_exists, ← Option.eq_none_iff_forall_ne_some] at h
  simp [conflicts, firstSeen, h]

theorem merged_lists_of_records (h : r.Records id) : (o.merged new r).Lists id :=
  mergeKeys_lists.mpr (.inl (lists_historicalOr.mpr h))

theorem filtered_provisional_sub (h : id ∈ (o.filtered new r).provisional) : id ∈ r.provisional := by
  rw [Observation.filtered, (filterCollisions_spec _ _ _ _ _).2.2.1] at h
  exact h.1

theorem merged_lists_learned (h : id ∈ o.learned new r) :
    ((o.merged new r).withoutEvicted (o.evicted new r)).Lists id := by
  unfold Observation.learned at h
  split at h
  · rw [Finset.mem_filter, ServerSigningKeys.mem_ids, ServerSigningKeys.mem_ids] at h
    obtain ⟨hid, hknown⟩ := h
    obtain ⟨hv, ho, -, -⟩ := filterCollisions_spec (r.historicalOr o new) new r.provisional o.source o.enforceFsw
    rcases hid with ⟨k, hk⟩ | ⟨k, hk⟩
    · left
      refine ⟨k, ?_⟩
      show (o.merged new r).verifyKeys.lookup id = some k
      rw [Observation.merged, mergeKeys_verifyKeys, Observation.filtered, hv]
      have hk : new.verifyKeys.lookup id = some k := hk
      simp [hk, Option.filter, blocked, not_conflicts_of_not_lists hknown]
    · obtain ⟨hk, hev⟩ := written_oldVerifyKeys.mp hk
      apply lists_withoutEvicted _ hev
      apply mergeKeys_lists.mpr
      right
      right
      refine ⟨k, ?_⟩
      rw [Observation.filtered, ho, hk]
      simp [Option.filter, not_conflicts_of_not_lists hknown]
  · simp at h

theorem written_provisional_records {b : Bool} (hr : ∀ id ∈ r.provisional, r.Records id) :
    ∀ id ∈ (o.written new r b).provisional, (o.written new r b).Records id := by
  intro id hid
  refine ⟨_, rfl, ?_⟩
  rcases Finset.mem_union.mp hid with hid | hid
  · obtain ⟨hid, hev⟩ := Finset.mem_sdiff.mp hid
    exact lists_withoutEvicted (merged_lists_of_records (hr id (filtered_provisional_sub hid))) (by simpa using hev)
  · exact merged_lists_learned hid

theorem written_wellFormed {b : Bool} (hr : r.WellFormed) (hn : ¬ new.CrossListed) :
    (o.written new r b).WellFormed where
  disjoint := by
    intro h hh ⟨id, k, k', hk, hk'⟩
    obtain rfl := Option.some.inj hh
    exact merged_not_crossListed (filtered_verifyKeys_sub o new r) (filtered_oldVerifyKeys_sub o new r)
      (not_crossListed_historicalOr hr) hn ⟨id, k, k', hk, (written_oldVerifyKeys.mp hk').1⟩
  ceiling := by
    intro h hh
    obtain rfl := Option.some.inj hh
    exact length_kept_le _ _ _
  provisional := written_provisional_records hr.provisional
  corroborated := by
    intro id hid
    refine ⟨_, rfl, ?_⟩
    obtain ⟨hid, hev⟩ := Finset.mem_sdiff.mp hid
    apply lists_withoutEvicted _ (by simpa using hev)
    rcases Finset.mem_union.mp hid with hid | hid
    · exact merged_lists_of_records (hr.corroborated id hid)
    · rw [List.mem_toFinset, ← AList.mem_keys, ← AList.lookup_isSome, Option.isSome_iff_exists] at hid
      exact mergeKeys_lists.mpr (.inr (.inl hid))

theorem merged_expiredTs (hs : o.enforceFsw = true) (hn : ¬ new.CrossListed) {k k' : OldVerifyKey}
    (hk : (r.historicalOr o new).oldVerifyKeys.lookup id = some k)
    (hk' : (o.merged new r).oldVerifyKeys.lookup id = some k') : k' = k := by
  rw [Observation.merged, mergeKeys_oldVerifyKeys, if_pos hs] at hk'
  cases hf : (o.filtered new r).verifyKeys.lookup id with
  | none =>
    rw [retiredFrom, hk, hf] at hk'
    exact (Option.some.inj hk').symm
  | some v =>
    have hv := filtered_verifyKeys_sub o new r hf
    rcases Option.or_eq_some_iff.mp hk' with hk' | ⟨-, hk'⟩
    · rcases retiredFrom_cases hk' with ⟨-, h⟩ | ⟨_, -, -, -, h⟩
      · rw [hf] at h
        cases h
      · rw [hv] at h
        cases h
    · exact absurd ⟨id, v, k', hv, filtered_oldVerifyKeys_sub o new r hk'⟩ hn

end

/-- What one call should keep: well-formed records, the retirement times under
strict caching, and, of the retired keys it merged, the first ones. -/
structure StepWellFormed (deserialize : Raw → Except String ServerSigningKeys)
    (before : ServerName → KeyRecords Raw) (o : Observation Raw) : Prop where
  wellFormed : ∀ origin, (observe deserialize before o origin).WellFormed
  expiredTs : o.enforceFsw = true → ∀ origin h h' id k k', (before origin).historical = some h →
    (observe deserialize before o origin).historical = some h' → h.oldVerifyKeys.lookup id = some k →
    h'.oldVerifyKeys.lookup id = some k' → k'.expiredTs = k.expiredTs
  firstKept : ∀ ret after, addSigningKeys deserialize o before = .ok (ret, after) →
    ∃ keys new h, deserialize o.raw = .ok keys ∧ new = dropMalformed o.nowPlusSkew keys ∧
      (after new.serverName).historical = some h ∧
      let r := before new.serverName
      ∀ id k, h.oldVerifyKeys.lookup id = some k ↔ (o.merged new r).oldVerifyKeys.lookup id = some k ∧
        ((o.merged new r).oldVerifyKeys.entries.filter fun e =>
          e ≠ ⟨id, k⟩ ∧ keptBefore (o.corroborated new r) e ⟨id, k⟩).length < retiredKeyCeiling

theorem observe_stepWellFormed {before : ServerName → KeyRecords Raw} {o : Observation Raw}
    (hb : ∀ origin, (before origin).WellFormed)
    (ho : ∀ keys, deserialize o.raw = .ok keys → ¬ (dropMalformed o.nowPlusSkew keys).CrossListed) :
    StepWellFormed deserialize before o where
  wellFormed := by
    intro origin
    rcases observe_cases deserialize before o with h | ⟨keys, new, hkeys, rfl, -, h⟩
    · rw [h]
      exact hb origin
    · rw [h, Function.update_apply]
      split
      · exact written_wellFormed (hb _) (ho keys hkeys)
      · exact hb origin
  expiredTs := by
    intro hs origin h h' id k k' hh hh' hk hk'
    rcases observe_cases deserialize before o with he | ⟨keys, new, hkeys, rfl, -, he⟩
    · rw [he, hh] at hh'
      obtain rfl := Option.some.inj hh'
      rw [hk] at hk'
      rw [Option.some.inj hk']
    · rw [he, Function.update_apply] at hh'
      split at hh'
      · rename_i heq
        obtain rfl := Option.some.inj hh'
        rw [heq] at hh
        rw [merged_expiredTs hs (ho keys hkeys) (by simpa [KeyRecords.historicalOr, hh] using hk)
          (written_oldVerifyKeys.mp hk').1]
      · rw [hh] at hh'
        obtain rfl := Option.some.inj hh'
        rw [hk] at hk'
        rw [Option.some.inj hk']
  firstKept := by
    intro ret after h
    obtain ⟨keys, new, hkeys, hnew, -, -, hdb⟩ := addSigningKeys_ok h
    refine ⟨keys, new, _, hkeys, hnew, by rw [hdb, Function.update_self]; rfl, ?_⟩
    intro r id k
    rw [written_oldVerifyKeys, Observation.evicted, mem_selectOldVerifyKeysToEvict]
    constructor
    · intro ⟨hk, hne⟩
      exact ⟨hk, not_le.mp fun hle => hne ⟨k, hk, hle⟩⟩
    · intro ⟨hk, hlt⟩
      refine ⟨hk, fun ⟨k', hk', hle⟩ => ?_⟩
      rw [hk] at hk'
      obtain rfl := Option.some.inj hk'
      exact absurd hle (not_le.mpr hlt)

theorem observeAll_wellFormed {os : List (Observation Raw)}
    (hos : ∀ o ∈ os, ∀ keys, deserialize o.raw = .ok keys → ¬ (dropMalformed o.nowPlusSkew keys).CrossListed) :
    ∀ origin, (observeAll deserialize (fun _ => {}) os origin).WellFormed := by
  induction os using List.reverseRecOn with
  | nil =>
    intro origin
    constructor <;> simp [observeAll]
  | append_singleton os o ih =>
    rw [observeAll, List.foldl_append]
    exact (observe_stepWellFormed (ih fun o' ho' => hos o' (by simp [ho'])) (hos o (by simp))).wellFormed

/-- After any sequence of payloads none of which lists an id as active and as
retired, the next one keeps the historical record well formed. -/
theorem keyRecord_wellFormed (deserialize : Raw → Except String ServerSigningKeys) (os : List (Observation Raw))
    (o : Observation Raw)
    (hos : ∀ o' ∈ os ++ [o], ∀ keys, deserialize o'.raw = .ok keys →
      ¬ (dropMalformed o'.nowPlusSkew keys).CrossListed) :
    StepWellFormed deserialize (observeAll deserialize (fun _ => {}) os) o :=
  observe_stepWellFormed (observeAll_wellFormed fun o' ho' => hos o' (by simp [ho'])) (hos o (by simp))

end

def keyPayload (active : List (KeyId × String)) (retired : List (KeyId × String × Nat)) (validUntilTs : Nat) :
    ServerSigningKeys where
  serverName := "origin.example"
  verifyKeys := (active.map fun e => (⟨e.1, ⟨e.2⟩⟩ : Σ _ : KeyId, VerifyKey)).toAList
  oldVerifyKeys := (retired.map fun e => (⟨e.1, ⟨e.2.1, e.2.2⟩⟩ : Σ _ : KeyId, OldVerifyKey)).toAList
  validUntilTs

/-- The payload fetched from its origin. -/
def fetchedAt (now : Nat) (keys : ServerSigningKeys) : Observation ServerSigningKeys where
  raw := keys
  source := .direct
  nowPlusSkew := now + 300000
  now

def relayedAt (now : Nat) (keys : ServerSigningKeys) : Observation ServerSigningKeys :=
  { fetchedAt now keys with source := .notary }

theorem rotated_key_wellFormed :
    StepWellFormed Except.ok
      (observeAll Except.ok (fun _ => {}) [fetchedAt 2000 (keyPayload [("ed25519:a", "AAA")] [] 9000)])
      (fetchedAt 3000 (keyPayload [("ed25519:b", "BBB")] [("ed25519:a", "AAA", 2500)] 9000)) :=
  keyRecord_wellFormed Except.ok _ _ (by
    intro o ho keys hkeys
    simp only [List.cons_append, List.nil_append, List.mem_cons, List.not_mem_nil, or_false] at ho
    rcases ho with rfl | rfl
    · obtain rfl := Except.ok.inj hkeys
      decide
    · obtain rfl := Except.ok.inj hkeys
      decide)

/-- One payload that lists a key as active and as retired, with the same bytes,
puts it in both maps. -/
theorem cross_listed_key_in_both :
    ¬ StepWellFormed Except.ok (observeAll Except.ok (fun _ => {}) [])
      (fetchedAt 2000 (keyPayload [("ed25519:a", "AAA")] [("ed25519:a", "AAA", 1)] 9000)) := by
  intro h
  exact (h.wellFormed "origin.example").disjoint _ rfl ⟨"ed25519:a", ⟨"AAA"⟩, ⟨"AAA", 1⟩, by decide, by decide⟩

end Congruent
