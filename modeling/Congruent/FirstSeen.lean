import Congruent.KeyRecords

/-!
# First seen wins

Under strict caching a key id that was accepted from a direct fetch keeps its
key bytes as long as it stays recorded. The provisional set is what allows an
override, so the argument is about which ids are in it.
-/

namespace Congruent

variable {Raw : Type} {deserialize : Raw → Except String ServerSigningKeys}

/-- The keys give the id these bytes, as an active or a retired key. -/
def ServerSigningKeys.Binds (keys : ServerSigningKeys) (id : KeyId) (b : String) : Prop :=
  (∃ k, keys.verifyKeys.lookup id = some k ∧ k.key = b) ∨ ∃ k, keys.oldVerifyKeys.lookup id = some k ∧ k.key = b

def ServerSigningKeys.Consistent (keys : ServerSigningKeys) : Prop :=
  ∀ id b b', keys.Binds id b → keys.Binds id b' → b = b'

theorem consistent_iff {keys : ServerSigningKeys} : keys.Consistent ↔
    ∀ id k k', keys.verifyKeys.lookup id = some k → keys.oldVerifyKeys.lookup id = some k' → k.key = k'.key := by
  constructor
  · intro h id k k' hk hk'
    exact h id _ _ (.inl ⟨k, hk, rfl⟩) (.inr ⟨k', hk', rfl⟩)
  · intro h id b b' hb hb'
    rcases hb with ⟨k, hk, rfl⟩ | ⟨k, hk, rfl⟩
    · rcases hb' with ⟨k', hk', rfl⟩ | ⟨k', hk', rfl⟩
      · rw [Option.some.inj (hk.symm.trans hk')]
      · exact h id k k' hk hk'
    · rcases hb' with ⟨k', hk', rfl⟩ | ⟨k', hk', rfl⟩
      · exact (h id k' k hk' hk).symm
      · rw [Option.some.inj (hk.symm.trans hk')]

theorem consistent_of_no_collision {keys : ServerSigningKeys} (h : intraPayloadCollision keys = false) :
    keys.Consistent := by
  rw [consistent_iff]
  intro id k k' hk hk'
  have hall := List.any_eq_false.mp h ⟨id, k⟩ (AList.mem_entries_iff.mpr hk)
  simpa [hk'] using hall

theorem binds_of_firstSeen {keys : ServerSigningKeys} {id : KeyId} {b : String} (h : firstSeen keys id = some b) :
    keys.Binds id b := by
  rcases Option.or_eq_some_iff.mp h with h | ⟨-, h⟩
  · obtain ⟨k, hk, rfl⟩ := Option.map_eq_some_iff.mp h
    exact .inl ⟨k, hk, rfl⟩
  · obtain ⟨k, hk, rfl⟩ := Option.map_eq_some_iff.mp h
    exact .inr ⟨k, hk, rfl⟩

theorem firstSeen_of_lists {keys : ServerSigningKeys} {id : KeyId} (h : keys.Lists id) :
    ∃ b, firstSeen keys id = some b := by
  rw [← Option.isSome_iff_exists]
  rcases h with ⟨k, h⟩ | ⟨k, h⟩
  · simp [firstSeen, h]
  · simp [firstSeen, h]

theorem ServerSigningKeys.Binds.lists {keys : ServerSigningKeys} {id : KeyId} {b : String} (h : keys.Binds id b) :
    keys.Lists id := by
  rcases h with ⟨k, hk, -⟩ | ⟨k, hk, -⟩
  · exact .inl ⟨k, hk⟩
  · exact .inr ⟨k, hk⟩

theorem eq_of_not_conflicts {historical : ServerSigningKeys} {id : KeyId} {b key : String}
    (hb : ∀ b', historical.Binds id b' → b' = b) (hl : historical.Lists id)
    (h : conflicts historical id key = false) : key = b := by
  obtain ⟨c, hc⟩ := firstSeen_of_lists hl
  have hcb := hb c (binds_of_firstSeen hc)
  simp only [conflicts, hc, Option.any_some, bne_eq_false_iff_eq] at h
  rw [← h, hcb]

/-! ## The merge -/

section
variable {historical new : ServerSigningKeys} {f : Filtered} {now : Nat} {enforceFsw : Bool}
  {id : KeyId} {b : String}

theorem mergeKeys_binds (h : (mergeKeys historical new f now enforceFsw).Binds id b) :
    (∃ k, f.verifyKeys.lookup id = some k ∧ k.key = b) ∨ (∃ k, f.oldVerifyKeys.lookup id = some k ∧ k.key = b) ∨
      historical.Binds id b := by
  rcases h with ⟨k, hk, rfl⟩ | ⟨k, hk, rfl⟩
  · rcases mergeKeys_verifyKeys_cases hk with hk | ⟨-, hk, -, -⟩
    · exact .inl ⟨k, hk, rfl⟩
    · exact .inr (.inr (.inl ⟨k, hk, rfl⟩))
  · rcases mergeKeys_oldVerifyKeys_cases hk with hk | hk
    · rcases retiredFrom_cases hk with ⟨hk, -⟩ | ⟨v, hv, rfl, -, -⟩
      · exact .inr (.inr (.inr ⟨k, hk, rfl⟩))
      · exact .inr (.inr (.inl ⟨v, hv, rfl⟩))
    · exact .inr (.inl ⟨k, hk, rfl⟩)

theorem mergeKeys_binds_active {k : VerifyKey} (hf : f.verifyKeys.lookup id = some k)
    (hnew : new.verifyKeys.lookup id = some k)
    (h : (mergeKeys historical new f now enforceFsw).Binds id b) :
    k.key = b ∨ ∃ k', f.oldVerifyKeys.lookup id = some k' ∧ k'.key = b := by
  rcases h with ⟨k', hk, rfl⟩ | ⟨k', hk, rfl⟩
  · rcases mergeKeys_verifyKeys_cases hk with hk | ⟨hn, -, -, -⟩
    · rw [hf] at hk
      rw [Option.some.inj hk]
      exact .inl rfl
    · rw [hf] at hn
      cases hn
  · rcases mergeKeys_oldVerifyKeys_cases hk with hk | hk
    · rcases retiredFrom_cases hk with ⟨-, hn⟩ | ⟨v, -, -, -, hn⟩
      · rw [hf] at hn
        cases hn
      · rw [hnew] at hn
        cases hn
    · exact .inr ⟨k', hk, rfl⟩

theorem mergeKeys_consistent (hv : ∀ {id k}, f.verifyKeys.lookup id = some k → new.verifyKeys.lookup id = some k)
    (ho : ∀ {id k}, f.oldVerifyKeys.lookup id = some k → new.oldVerifyKeys.lookup id = some k)
    (hh : historical.Consistent) (hn : new.Consistent) :
    (mergeKeys historical new f now enforceFsw).Consistent := by
  rw [consistent_iff]
  intro id k k' hk hk'
  rcases mergeKeys_verifyKeys_cases hk with hk | ⟨-, hk, hnone, hrej⟩
  · rcases mergeKeys_binds_active hk (hv hk) (.inr ⟨k', hk', rfl⟩) with h | ⟨k'', hk'', h⟩
    · exact h
    · rw [← h]
      exact consistent_iff.mp hn id k k'' (hv hk) (ho hk'')
  · rcases mergeKeys_oldVerifyKeys_cases hk' with hk' | hk'
    · rcases retiredFrom_cases hk' with ⟨hk', -⟩ | ⟨v, -, -, hrej', h⟩
      · exact consistent_iff.mp hh id k k' hk hk'
      · simp [hrej', h] at hrej
    · rw [hnone] at hk'
      cases hk'

end

/-! ## Settled ids -/

/-- The id is recorded, with these bytes only, and no longer provisional. -/
structure KeyRecords.Settled (r : KeyRecords Raw) (id : KeyId) (b : String) : Prop where
  records : r.Records id
  binds : ∀ h, r.historical = some h → ∀ b', h.Binds id b' → b' = b
  permanent : id ∉ r.provisional

/-- What holds of the records after any payloads. -/
structure KeyRecords.Sound (r : KeyRecords Raw) : Prop where
  consistent : ∀ h, r.historical = some h → h.Consistent
  provisional : ∀ id ∈ r.provisional, r.Records id

theorem KeyRecords.Sound.historicalOr {r : KeyRecords Raw} (hr : r.Sound) {o : Observation Raw}
    {new : ServerSigningKeys} : (r.historicalOr o new).Consistent := by
  unfold KeyRecords.historicalOr
  cases h : r.historical with
  | none =>
    rw [consistent_iff]
    intro id k k' hk
    simp at hk
  | some k => exact hr.consistent k h

theorem binds_withoutEvicted {keys : ServerSigningKeys} {evicted : List KeyId} {id : KeyId} {b : String}
    (h : (keys.withoutEvicted evicted).Binds id b) : keys.Binds id b := by
  rcases h with h | ⟨k, hk, rfl⟩
  · exact .inl h
  · exact .inr ⟨k, (written_oldVerifyKeys.mp hk).1, rfl⟩

section
variable {o : Observation Raw} {new : ServerSigningKeys} {r : KeyRecords Raw} {id : KeyId} {b : String}

theorem written_sound {c : Bool} (hr : r.Sound) (hn : new.Consistent) : (o.written new r c).Sound where
  consistent := by
    intro h hh id b b' hb hb'
    obtain rfl := Option.some.inj hh
    exact mergeKeys_consistent (filtered_verifyKeys_sub o new r) (filtered_oldVerifyKeys_sub o new r)
      hr.historicalOr hn id b b' (binds_withoutEvicted hb) (binds_withoutEvicted hb')
  provisional := written_provisional_records hr.provisional

variable (o new) in
theorem settled_historicalOr (hs : r.Settled id b) :
    (r.historicalOr o new).Lists id ∧ ∀ b', (r.historicalOr o new).Binds id b' → b' = b := by
  obtain ⟨h, hh, hl⟩ := hs.records
  rw [KeyRecords.historicalOr, hh]
  exact ⟨hl, hs.binds h hh⟩

theorem not_mem_learned (hs : r.Records id) : id ∉ o.learned new r := by
  unfold Observation.learned
  split
  · rw [Finset.mem_filter, ServerSigningKeys.mem_ids, ServerSigningKeys.mem_ids, lists_historicalOr]
    intro h
    exact h.2 hs
  · simp

theorem filtered_settled (new : ServerSigningKeys) (hs : r.Settled id b) (he : o.enforceFsw = true) :
    (∀ k, (o.filtered new r).verifyKeys.lookup id = some k → k.key = b) ∧
      ∀ k, (o.filtered new r).oldVerifyKeys.lookup id = some k → k.key = b := by
  obtain ⟨hv, ho, -, -⟩ := filterCollisions_spec (r.historicalOr o new) new r.provisional o.source o.enforceFsw
  obtain ⟨hl, hb⟩ := settled_historicalOr o new hs
  constructor
  · intro k hk
    rw [Observation.filtered, hv] at hk
    have hk := (Option.filter_eq_some_iff.mp hk).2
    simp only [blocked, he, overrides, hs.permanent, decide_false, Bool.and_false, Bool.false_and, Bool.not_false,
      Bool.and_true, Bool.true_and, Bool.not_eq_true'] at hk
    exact eq_of_not_conflicts hb hl hk
  · intro k hk
    rw [Observation.filtered, ho] at hk
    have hk := (Option.filter_eq_some_iff.mp hk).2
    simp only [he, Bool.true_and, Bool.not_eq_true'] at hk
    exact eq_of_not_conflicts hb hl hk

theorem merged_settled (hs : r.Settled id b) (he : o.enforceFsw = true) :
    ∀ b', (o.merged new r).Binds id b' → b' = b := by
  intro b' hb'
  obtain ⟨hv, ho⟩ := filtered_settled new hs he
  rcases mergeKeys_binds hb' with ⟨k, hk, rfl⟩ | ⟨k, hk, rfl⟩ | hb'
  · exact hv k hk
  · exact ho k hk
  · exact (settled_historicalOr o new hs).2 b' hb'

theorem written_settled {c : Bool} (hs : r.Settled id b) (he : o.enforceFsw = true)
    (hrec : (o.written new r c).Records id) : (o.written new r c).Settled id b where
  records := hrec
  binds := by
    intro h hh b' hb'
    obtain rfl := Option.some.inj hh
    exact merged_settled hs he b' (binds_withoutEvicted hb')
  permanent := by
    intro h
    rcases Finset.mem_union.mp h with h | h
    · exact hs.permanent (filtered_provisional_sub (Finset.mem_sdiff.mp h).1)
    · exact not_mem_learned hs.records h

theorem returned_binds (he : o.enforceFsw = true) {h : ServerSigningKeys}
    (hh : h = (o.merged new r).withoutEvicted (o.evicted new r)) (hl : h.Lists id)
    (hb : (o.returned new r).Binds id b) : h.Binds id b := by
  obtain ⟨c, hc⟩ := firstSeen_of_lists hl
  have hcb : c = b := by
    simp only [Observation.returned, he, if_true, ← hh, patchFirstSeen, ServerSigningKeys.Binds,
      AList.lookup_mapValues,
      hc, Option.map_eq_some_iff, Option.getD_some] at hb
    rcases hb with ⟨_, ⟨_, -, rfl⟩, rfl⟩ | ⟨_, ⟨_, -, rfl⟩, rfl⟩ <;> rfl
  exact binds_of_firstSeen (hcb ▸ hc)

theorem served_settled (hs : r.Settled id b) (he : o.enforceFsw = true)
    (hrej : (o.filtered new r).rejectedCollision = false) : ∀ b', new.Binds id b' → b' = b := by
  obtain ⟨hl, hb⟩ := settled_historicalOr o new hs
  rw [Observation.filtered, (filterCollisions_spec _ _ _ _ _).2.2.2, Bool.or_eq_false_iff] at hrej
  intro b' hb'
  apply eq_of_not_conflicts hb hl
  rcases hb' with ⟨k, hk, rfl⟩ | ⟨k, hk, rfl⟩
  · have := List.any_eq_false.mp hrej.1 ⟨id, k⟩ (AList.mem_entries_iff.mpr hk)
    simpa [blocked, he, overrides, hs.permanent] using this
  · have := List.any_eq_false.mp hrej.2 ⟨id, k⟩ (AList.mem_entries_iff.mpr hk)
    simpa [he] using this

/-! ## Acceptance from a direct fetch -/

/-- The id is still provisional with the bytes that a direct fetch may confirm. -/
def KeyRecords.ProvisionalAs (r : KeyRecords Raw) (id : KeyId) (b : String) : Prop :=
  id ∈ r.provisional ∧ ∃ h, r.historical = some h ∧ h.Binds id b

/-- The direct payload of an accepted id leaves it settled: it was unknown, it
was known with these bytes and so not provisional, or it was overridden. -/
theorem written_accepted {c : Bool} (hr : r.Sound) (hn : new.Consistent) (hd : o.source = .direct)
    (he : o.enforceFsw = true) (hu : ¬ r.ProvisionalAs id b)
    (hacc : ((o.merged new r).withoutEvicted (o.evicted new r)).Binds id b) : (o.written new r c).Settled id b := by
  have hrec : (o.written new r c).Records id := ⟨_, rfl, hacc.lists⟩
  have hlearned : id ∉ o.learned new r := by simp [Observation.learned, hd]
  obtain ⟨hv, ho, hp, -⟩ := filterCollisions_spec (r.historicalOr o new) new r.provisional o.source o.enforceFsw
  have hcons := (written_sound (o := o) (c := c) hr hn).consistent _ rfl
  have hbinds : ∀ h, (o.written new r c).historical = some h → ∀ b', h.Binds id b' → b' = b := by
    intro h hh b' hb'
    obtain rfl := Option.some.inj hh
    exact hcons id b' b hb' hacc
  refine ⟨hrec, hbinds, ?_⟩
  intro hprov
  have hprov : id ∈ (o.filtered new r).provisional := by
    rcases Finset.mem_union.mp hprov with h | h
    · exact (Finset.mem_sdiff.mp h).1
    · exact absurd h hlearned
  rw [Observation.filtered, hp] at hprov
  obtain ⟨hprov, hov⟩ := hprov
  -- a provisional id is recorded; its bytes differ from the payload's
  obtain ⟨h, hh, hl⟩ := hr.provisional id hprov
  have hor : r.historicalOr o new = h := by rw [KeyRecords.historicalOr, hh, Option.getD_some]
  have hne : ¬ h.Binds id b := fun hb => hu ⟨hprov, h, hh, hb⟩
  rw [hor] at hv ho hov
  have hconf : ∀ k, k = b → conflicts h id k = true := by
    intro k hk
    obtain ⟨d, hd⟩ := firstSeen_of_lists hl
    have : d ≠ k := by
      intro e
      exact hne (hk ▸ e ▸ binds_of_firstSeen hd)
    simp [conflicts, hd, this]
  rcases mergeKeys_binds (binds_withoutEvicted hacc) with ⟨k, hk, hkb⟩ | ⟨k, hk, hkb⟩ | hb
  · -- the payload's active key passed although it conflicts: an override
    rw [Observation.filtered, hor, hv] at hk
    obtain ⟨hk, hb⟩ := Option.filter_eq_some_iff.mp hk
    rw [hk, Option.any_some] at hov
    simp [blocked, he, hconf _ hkb, hov] at hb
  · rw [Observation.filtered, hor, ho] at hk
    have hb := (Option.filter_eq_some_iff.mp hk).2
    simp [he, hconf _ hkb] at hb
  · rw [hor] at hb
    exact hne hb

end

/-! ## Runs -/

def Observation.payload (deserialize : Raw → Except String ServerSigningKeys) (o : Observation Raw) :
    Option ServerSigningKeys :=
  match deserialize o.raw with
  | .ok keys => some (dropMalformed o.nowPlusSkew keys)
  | .error _ => none

def StaysRecorded (deserialize : Raw → Except String ServerSigningKeys) (origin : ServerName) (id : KeyId) :
    (ServerName → KeyRecords Raw) → List (Observation Raw) → Prop
  | _, [] => True
  | db, o :: os => (observe deserialize db o origin).Records id ∧
      StaysRecorded deserialize origin id (observe deserialize db o) os

def AcceptedDirect (deserialize : Raw → Except String ServerSigningKeys) (db : ServerName → KeyRecords Raw)
    (o : Observation Raw) (origin : ServerName) (id : KeyId) (b : String) : Prop :=
  o.source = .direct ∧ ∃ ret db' new h, addSigningKeys deserialize o db = .ok (ret, db') ∧
    o.payload deserialize = some new ∧ new.serverName = origin ∧ new.Binds id b ∧
    (db' origin).historical = some h ∧ h.Binds id b

theorem observe_sound {db : ServerName → KeyRecords Raw} (hdb : ∀ origin, (db origin).Sound) (o : Observation Raw) :
    ∀ origin, (observe deserialize db o origin).Sound := by
  intro origin
  rcases observe_cases deserialize db o with h | ⟨keys, new, hkeys, rfl, hc, h⟩
  · rw [h]
    exact hdb origin
  · rw [h, Function.update_apply]
    split
    · exact written_sound (hdb _) (consistent_of_no_collision hc)
    · exact hdb origin

theorem observeAll_sound (os : List (Observation Raw)) :
    ∀ origin, (observeAll deserialize (fun _ => {}) os origin).Sound := by
  induction os using List.reverseRecOn with
  | nil =>
    intro origin
    constructor <;> simp [observeAll]
  | append_singleton os o ih =>
    rw [observeAll, List.foldl_append]
    exact observe_sound ih o

theorem observe_settled {db : ServerName → KeyRecords Raw} {o : Observation Raw} {origin : ServerName} {id : KeyId}
    {b : String} (he : o.enforceFsw = true) (hs : (db origin).Settled id b)
    (hrec : (observe deserialize db o origin).Records id) : (observe deserialize db o origin).Settled id b := by
  rcases observe_cases deserialize db o with h | ⟨keys, new, hkeys, hnew, hc, h⟩
  · rw [h]
    exact hs
  · rw [h, Function.update_apply] at hrec ⊢
    split
    · rename_i heq
      rw [if_pos heq] at hrec
      exact written_settled (heq ▸ hs) he hrec
    · exact hs

theorem binds_dropMalformed {keys : ServerSigningKeys} {n : Nat} {id : KeyId} {b : String}
    (hf : oldKeysFiltered n keys = false) (h : keys.Binds id b) : (dropMalformed n keys).Binds id b := by
  rcases h with h | ⟨k, hk, rfl⟩
  · exact .inl h
  · refine .inr ⟨k, ?_, rfl⟩
    have hk' := List.any_eq_false.mp hf ⟨id, k⟩ (AList.mem_entries_iff.mpr hk)
    simp only [Bool.not_eq_true] at hk'
    simp [dropMalformed, hk, Option.filter, hk']

def ServesOnly (deserialize : Raw → Except String ServerSigningKeys) (db : ServerName → KeyRecords Raw)
    (origin : ServerName) (id : KeyId) (b : String) : Prop :=
  (∀ raw keys, rawSigningKeysFor db origin = .ok raw → deserialize raw = .ok keys →
      ∀ b', keys.Binds id b' → b' = b) ∧
    ∀ keys, mergedSigningKeysFor deserialize db origin = .ok keys → ∀ b', keys.Binds id b' → b' = b

theorem servesOnly_of_notary {db : ServerName → KeyRecords Raw} {origin : ServerName} {id : KeyId} {b : String}
    (hs : (db origin).Settled id b)
    (hn : ∀ raw keys, (db origin).notary = some raw → deserialize raw = .ok keys →
      ∀ b', keys.Binds id b' → b' = b) :
    ServesOnly deserialize db origin id b := by
  have hraw : ∀ raw, rawSigningKeysFor db origin = .ok raw → (db origin).notary = some raw := by
    intro raw h
    unfold rawSigningKeysFor at h
    split at h
    · rename_i heq
      rw [heq, Except.ok.inj h]
    · cases h
  constructor
  · intro raw keys h
    exact hn raw keys (hraw raw h)
  · intro keys h b' hb'
    unfold mergedSigningKeysFor at h
    split at h
    · cases h
    · rename_i raw hr
      split at h
      · cases h
      · rename_i keys' hkeys
        have hn := hn raw keys' (hraw raw hr) hkeys b'
        split at h
        · rename_i historical hh
          obtain rfl := Except.ok.inj h
          rcases hb' with hb' | ⟨k, hk, rfl⟩
          · exact hn (.inl hb')
          · rw [AList.lookup_union, Option.or_eq_some_iff] at hk
            rcases hk with hk | ⟨-, hk⟩
            · exact hs.binds historical hh _ (.inr ⟨k, hk, rfl⟩)
            · exact hn (.inr ⟨k, hk, rfl⟩)
        · obtain rfl := Except.ok.inj h
          exact hn hb'

/-- A call leaves the served payload of an origin as it is, or serves one that
gives a settled id its bytes. -/
theorem observe_served {db : ServerName → KeyRecords Raw} {o : Observation Raw} {origin : ServerName} {id : KeyId}
    {b : String} (he : o.enforceFsw = true) (hs : (db origin).Settled id b)
    (hrec : (observe deserialize db o origin).Records id) :
    (observe deserialize db o origin).notary = (db origin).notary ∨
      ServesOnly deserialize (observe deserialize db o) origin id b := by
  have hs' := observe_settled he hs hrec
  rcases observe_cases deserialize db o with h | ⟨keys, new, hkeys, hnew, -, h⟩
  · rw [h]
    exact .inl rfl
  · by_cases heq : origin = new.serverName
    · subst heq
      by_cases hw : (!(o.filtered new (db new.serverName)).rejectedCollision &&
          !oldKeysFiltered o.nowPlusSkew keys) = true
      · right
        apply servesOnly_of_notary hs'
        intro raw keys' hraw hkeys'
        simp only [Bool.and_eq_true, Bool.not_eq_true'] at hw
        rw [h, Function.update_self] at hraw
        simp only [Observation.written, hw, Bool.not_false, Bool.and_true, if_true, Option.some.injEq] at hraw
        rw [← hraw, hkeys] at hkeys'
        obtain rfl := Except.ok.inj hkeys'
        intro b' hb'
        exact served_settled hs he hw.1 b' (hnew ▸ binds_dropMalformed hw.2 hb')
      · left
        rw [h, Function.update_self]
        simp only [Observation.written, hw, if_false, Bool.false_eq_true]
    · left
      rw [h, Function.update_of_ne heq]

theorem observeAll_settled {origin : ServerName} {id : KeyId} {b : String} (n : Option Raw) :
    ∀ (os : List (Observation Raw)) (db : ServerName → KeyRecords Raw), (∀ o ∈ os, o.enforceFsw = true) →
      (db origin).Settled id b → (db origin).notary = n ∨ ServesOnly deserialize db origin id b →
      StaysRecorded deserialize origin id db os →
      (observeAll deserialize db os origin).Settled id b ∧
        ((observeAll deserialize db os origin).notary = n ∨
          ServesOnly deserialize (observeAll deserialize db os) origin id b)
  | [], _, _, hs, hn, _ => ⟨hs, hn⟩
  | o :: os, db, he, hs, hn, hrec => by
    have heo := he o (by simp)
    refine observeAll_settled n os _ (fun o' ho' => he o' (by simp [ho'])) (observe_settled heo hs hrec.1) ?_ hrec.2
    rcases (observe_served heo hs hrec.1 : _ ∨ ServesOnly deserialize _ _ _ _) with h | h
    · rcases hn with hn | hn
      · exact .inl (h.trans hn)
      · right
        apply servesOnly_of_notary (observe_settled heo hs hrec.1)
        intro raw keys hraw hkeys
        rw [h] at hraw
        exact hn.1 raw keys (by rw [rawSigningKeysFor, hraw]) hkeys
    · exact .inr h

theorem payload_eq {o : Observation Raw} {keys : ServerSigningKeys} (h : deserialize o.raw = .ok keys) :
    o.payload deserialize = some (dropMalformed o.nowPlusSkew keys) := by
  rw [Observation.payload, h]

theorem observe_accepted {db : ServerName → KeyRecords Raw} {o : Observation Raw} {origin : ServerName} {id : KeyId}
    {b : String} (hdb : ∀ origin, (db origin).Sound) (he : o.enforceFsw = true)
    (hacc : AcceptedDirect deserialize db o origin id b) (hprov : ¬ (db origin).ProvisionalAs id b) :
    (observe deserialize db o origin).Settled id b := by
  obtain ⟨hd, ret, db', new, h, hok, hpay, rfl, hnew, hh, hb⟩ := hacc
  obtain ⟨keys, new', hkeys, hnew', hc, -, hdb'⟩ := addSigningKeys_ok hok
  rw [payload_eq hkeys, ← hnew'] at hpay
  obtain rfl := Option.some.inj hpay
  rw [hdb', Function.update_self] at hh
  obtain rfl := Option.some.inj hh
  rw [observe, hok]
  show (db' new'.serverName).Settled id b
  rw [hdb', Function.update_self]
  exact written_accepted (hdb _) (consistent_of_no_collision hc) hd he hprov hb

/-- What a call returns for an origin gives a settled id its bytes, unless the
call evicts the id. -/
theorem addSigningKeys_returned {db db' : ServerName → KeyRecords Raw} {o : Observation Raw}
    {ret new : ServerSigningKeys} {id : KeyId} {b : String} (he : o.enforceFsw = true)
    (hok : addSigningKeys deserialize o db = .ok (ret, db')) (hpay : o.payload deserialize = some new)
    (hs : (db new.serverName).Settled id b) (hrec : (db' new.serverName).Records id) :
    ∀ b', ret.Binds id b' → b' = b := by
  obtain ⟨keys, new', hkeys, hnew', hc, rfl, hdb'⟩ := addSigningKeys_ok hok
  rw [payload_eq hkeys, ← hnew'] at hpay
  obtain rfl := Option.some.inj hpay
  rw [hdb', Function.update_self] at hrec
  obtain ⟨h, hh, hl⟩ := hrec
  obtain rfl := Option.some.inj hh
  intro b' hb'
  exact merged_settled hs he b' (binds_withoutEvicted (returned_binds he rfl hl hb'))

theorem observeAll_append (db : ServerName → KeyRecords Raw) (os os' : List (Observation Raw)) :
    observeAll deserialize db (os ++ os') = observeAll deserialize (observeAll deserialize db os) os' :=
  List.foldl_append

/-- A key id accepted from a direct fetch that did not merely confirm a
provisional binding keeps its bytes: in the record, in what is returned, and in
what any later payload makes served. -/
theorem signing_key_first_seen (deserialize : Raw → Except String ServerSigningKeys) (pre : List (Observation Raw))
    (o : Observation Raw) (mid : List (Observation Raw)) (origin : ServerName) (id : KeyId) (b : String)
    (hstrict : ∀ o' ∈ pre ++ o :: mid, o'.enforceFsw = true)
    (hacc : AcceptedDirect deserialize (observeAll deserialize (fun _ => {}) pre) o origin id b)
    (hprov : ¬ (observeAll deserialize (fun _ => {}) pre origin).ProvisionalAs id b)
    (hrec : StaysRecorded deserialize origin id (observeAll deserialize (fun _ => {}) (pre ++ [o])) mid) :
    let accepted := observeAll deserialize (fun _ => {}) (pre ++ [o])
    let db := observeAll deserialize (fun _ => {}) (pre ++ o :: mid)
    (∀ h, (db origin).historical = some h → ∀ b', h.Binds id b' → b' = b) ∧
      ((db origin).notary = (accepted origin).notary ∨ ServesOnly deserialize db origin id b) ∧
      ∀ o' ret db', o'.enforceFsw = true → addSigningKeys deserialize o' db = .ok (ret, db') →
        (∃ new, o'.payload deserialize = some new ∧ new.serverName = origin) → (db' origin).Records id →
        ∀ b', ret.Binds id b' → b' = b := by
  intro accepted db
  have hstep : accepted = observe deserialize (observeAll deserialize (fun _ => {}) pre) o :=
    observeAll_append _ _ _
  have hdb : db = observeAll deserialize accepted mid := by
    rw [← observeAll_append, List.append_assoc, List.singleton_append]
  have haccepted : (accepted origin).Settled id b := by
    rw [hstep]
    exact observe_accepted (observeAll_sound pre) (hstrict o (by simp)) hacc hprov
  obtain ⟨hs, hn⟩ := observeAll_settled (accepted origin).notary mid accepted
    (fun o' ho' => hstrict o' (by simp [ho'])) haccepted (.inl rfl) hrec
  rw [← hdb] at hs hn
  refine ⟨hs.binds, hn, ?_⟩
  intro o' ret db' he' hok ⟨new, hpay, horigin⟩ hrec'
  exact addSigningKeys_returned he' hok hpay (horigin ▸ hs) (horigin ▸ hrec')

def activeKey (bytes : String) : ServerSigningKeys := keyPayload [("ed25519:a", bytes)] [] 9000

theorem direct_key_first_seen :
    let db := observeAll Except.ok (fun _ => {})
      [fetchedAt 2000 (activeKey "AAA"), relayedAt 3000 (activeKey "BBB")]
    ∀ h, (db "origin.example").historical = some h → ∀ b', h.Binds "ed25519:a" b' → b' = "AAA" :=
  (signing_key_first_seen Except.ok [] (fetchedAt 2000 (activeKey "AAA")) [relayedAt 3000 (activeKey "BBB")]
    "origin.example" "ed25519:a" "AAA" (by decide)
    ⟨rfl, _, _, _, _, rfl, rfl, rfl, .inl ⟨⟨"AAA"⟩, by decide, rfl⟩, rfl,
      .inl ⟨⟨"AAA"⟩, by decide, rfl⟩⟩
    (fun h => absurd h.1 (by decide))
    ⟨⟨_, rfl, .inl ⟨⟨"AAA"⟩, by decide⟩⟩, trivial⟩).1

/-- A key learned from a notary and confirmed by its origin is still provisional,
and the origin's next payload replaces it. -/
theorem confirmed_key_replaced :
    AcceptedDirect Except.ok (observeAll Except.ok (fun _ => {}) [relayedAt 2000 (activeKey "AAA")])
        (fetchedAt 3000 (activeKey "AAA")) "origin.example" "ed25519:a" "AAA" ∧
      StaysRecorded Except.ok "origin.example" "ed25519:a"
        (observeAll Except.ok (fun _ => {}) [relayedAt 2000 (activeKey "AAA"), fetchedAt 3000 (activeKey "AAA")])
        [fetchedAt 4000 (activeKey "BBB")] ∧
      ∃ h, (observeAll Except.ok (fun _ => {}) [relayedAt 2000 (activeKey "AAA"), fetchedAt 3000 (activeKey "AAA"),
        fetchedAt 4000 (activeKey "BBB")] "origin.example").historical = some h ∧ h.Binds "ed25519:a" "BBB" :=
  ⟨⟨rfl, _, _, _, _, rfl, rfl, rfl, .inl ⟨⟨"AAA"⟩, by decide, rfl⟩, rfl,
      .inl ⟨⟨"AAA"⟩, by decide, rfl⟩⟩,
    ⟨⟨_, rfl, .inl ⟨⟨"BBB"⟩, by decide⟩⟩, trivial⟩,
    _, rfl, .inl ⟨⟨"BBB"⟩, by decide, rfl⟩⟩

end Congruent
