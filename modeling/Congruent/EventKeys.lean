import Congruent.KeyRecords

/-!
# Keys for the verification of an event (`server_keys/get.rs`)

A required key is looked up in the two records of its origin, fetched if it is
in neither, and given out when its recorded retirement and, from room version 5
on, the validity of the served payload allow it.
-/

namespace Congruent

/-- Whether event signature verification enforces a key's `valid_until_ts`. -/
inductive ValidUntilPolicy where
  | ignore
  | enforce
  deriving DecidableEq, Repr

def validityPolicyForVersion : RoomVersionId → ValidUntilPolicy
  | .V1 | .V2 | .V3 | .V4 => .ignore
  | _ => .enforce

def missingKeyRecordIsAllowed (e : KeyError) : Bool := e.isNotFound

/-- The configuration and keys of this server, and the checks that are made on a
raw answer (`validate.rs`). -/
structure KeyService (Raw : Type) where
  queryTrustedKeyServersFirst : Bool := false
  onlyQueryTrustedKeyServers : Bool := false
  strictCaching : Bool := true
  serverIsOurs : ServerName → Bool := fun _ => false
  verifyKeys : BTreeMap KeyId VerifyKey := ∅
  deserialize : Raw → Except String ServerSigningKeys
  validateRaw : Raw → Bool := fun _ => true

/-- The clock and the database while one answer is added. -/
structure Timing where
  nowPlusSkew : Nat
  now : Nat
  persisted : Bool := true

/-- What the network answers while one key is looked up: the documents of the
trusted servers in the order they are asked, the origin's, and the origin's
answer to a refresh. -/
structure KeyReplies (Raw : Type) where
  notaries : List (Raw × Timing) := []
  origin : Option (Raw × Timing) := none
  inBackoff : Bool := false
  refresh : Option Raw := none
  refreshTiming : Timing

section
variable {Raw : Type} (svc : KeyService Raw)

def KeyService.observation (source : FetchSource) (raw : Raw) (t : Timing) : Observation Raw where
  raw
  source
  enforceFsw := svc.strictCaching
  nowPlusSkew := t.nowPlusSkew
  now := t.now
  persisted := t.persisted

def mergeOldKeys (keys : ServerSigningKeys) : ServerSigningKeys :=
  { keys with verifyKeys := (keys.oldVerifyKeys.mapValues fun _ k => { key := k.key }) ∪ keys.verifyKeys }

def extractKey (keys : ServerSigningKeys) (id : KeyId) : Option VerifyKey :=
  (keys.verifyKeys.lookup id).or ((keys.oldVerifyKeys.lookup id).map fun old => { key := old.key })

/-- The keys of both records, retired ones included. -/
def KeyService.verifyKeysFor (db : ServerName → KeyRecords Raw) (origin : ServerName) : BTreeMap KeyId VerifyKey :=
  let keys : BTreeMap KeyId VerifyKey :=
    match (db origin).historical with
    | some historical => (mergeOldKeys historical).verifyKeys
    | none => ∅
  let keys : BTreeMap KeyId VerifyKey :=
    match (db origin).notary with
    | some raw =>
      match svc.deserialize raw with
      | .ok originKeys => keys ∪ (mergeOldKeys originKeys).verifyKeys
      -- not reached: a stored payload was decoded before
      | .error _ => keys
    | none => keys
  if svc.serverIsOurs origin then svc.verifyKeys ∪ keys else keys

/-- An answer of the origin about itself. -/
def KeyService.serverRequest (target : ServerName) (reply : Option Raw) : Option Raw :=
  reply.filter fun raw => svc.validateRaw raw &&
    match svc.deserialize raw with
    | .ok keys => keys.serverName == target
    | .error _ => false

/-- The loop over the documents of the trusted servers. -/
def KeyService.getVerifyKeyFromNotaries (id : KeyId) :
    List (Raw × Timing) → (ServerName → KeyRecords Raw) → Option VerifyKey × (ServerName → KeyRecords Raw)
  | [], db => (none, db)
  | (raw, t) :: docs, db =>
    match addSigningKeys svc.deserialize (svc.observation .notary raw t) db with
    | .error _ => getVerifyKeyFromNotaries id docs db
    | .ok (patched, db) =>
      match extractKey patched id with
      | some key => (some key, db)
      | none => getVerifyKeyFromNotaries id docs db

def KeyService.getVerifyKeyFromOrigin (origin : ServerName) (id : KeyId) (reply : Option (Raw × Timing))
    (db : ServerName → KeyRecords Raw) : Option VerifyKey × (ServerName → KeyRecords Raw) :=
  match reply with
  | none => (none, db)
  | some (raw, t) =>
    match svc.serverRequest origin (some raw) with
    | none => (none, db)
    | some raw =>
      match addSigningKeys svc.deserialize (svc.observation .direct raw t) db with
      | .error _ => (none, db)
      | .ok (patched, db) => (extractKey patched id, db)

/-- The documents of trusted servers that pass the raw checks. -/
def KeyService.notaryDocuments (replies : KeyReplies Raw) : List (Raw × Timing) :=
  replies.notaries.filter fun d => svc.validateRaw d.1

def KeyService.getVerifyKey (origin : ServerName) (id : KeyId) (replies : KeyReplies Raw)
    (db : ServerName → KeyRecords Raw) : Option VerifyKey × (ServerName → KeyRecords Raw) :=
  match (svc.verifyKeysFor db origin).lookup id with
  | some key => (some key, db)
  | none =>
    let notaries := svc.getVerifyKeyFromNotaries id (svc.notaryDocuments replies)
    let asked := if svc.queryTrustedKeyServersFirst then notaries db else (none, db)
    if asked.1.isSome then asked
    else
      let asked := if svc.onlyQueryTrustedKeyServers then (none, asked.2)
        else svc.getVerifyKeyFromOrigin origin id replies.origin asked.2
      if asked.1.isSome then asked
      else if svc.queryTrustedKeyServersFirst then (none, asked.2) else notaries asked.2

/-- Whether a retired key is at or past its retirement for the event. -/
def KeyService.isKeyExpiredForEvent (db : ServerName → KeyRecords Raw) (origin : ServerName) (id : KeyId)
    (eventTs : Nat) : Bool :=
  match mergedSigningKeysFor svc.deserialize db origin with
  | .ok keys =>
    match keys.oldVerifyKeys.lookup id with
    | some old => old.expiredTs ≤ eventTs
    | none => false
  | .error _ => false

def KeyService.serverRequestCoalesced (origin : ServerName) (minimumValidUntilTs : Nat) (id : KeyId)
    (replies : KeyReplies Raw) (db : ServerName → KeyRecords Raw) : Option Raw :=
  if replies.inBackoff then none
  else
    let requested := svc.serverRequest origin replies.refresh
    match mergedSigningKeysFor svc.deserialize db origin with
    | .ok cached =>
      let missingKey := (cached.verifyKeys.lookup id).isNone && (cached.oldVerifyKeys.lookup id).isNone
      let stale := cached.validUntilTs < minimumValidUntilTs
      if !missingKey && !stale then (rawSigningKeysFor db origin).toOption else requested
    | .error _ => requested

def coversEvent (keys : ServerSigningKeys) (id : KeyId) (eventTs : Nat) : Bool :=
  (keys.oldVerifyKeys.lookup id).isSome || decide (eventTs ≤ keys.validUntilTs)

def KeyService.isKeyValidForEvent (origin : ServerName) (id : KeyId) (eventTs : Nat) (replies : KeyReplies Raw)
    (db : ServerName → KeyRecords Raw) : Bool × (ServerName → KeyRecords Raw) :=
  match mergedSigningKeysFor svc.deserialize db origin with
  | .error e => (missingKeyRecordIsAllowed e, db)
  | .ok cached =>
    if coversEvent cached id eventTs then (true, db)
    else
      match svc.serverRequestCoalesced origin eventTs id replies db with
      | none => (false, db)
      | some raw =>
        match addSigningKeys svc.deserialize (svc.observation .direct raw replies.refreshTiming) db with
        | .error _ => (false, db)
        | .ok (_, db) =>
          match mergedSigningKeysFor svc.deserialize db origin with
          | .ok fresh => (coversEvent fresh id eventTs, db)
          | .error _ => (false, db)

/-- One round of `get_pubkeys_for_event`. -/
def KeyService.pubkeyForEvent (origin : ServerName) (eventTs : Nat) (policy : ValidUntilPolicy) (id : KeyId)
    (replies : KeyReplies Raw) (db : ServerName → KeyRecords Raw) :
    Option VerifyKey × (ServerName → KeyRecords Raw) :=
  match svc.getVerifyKey origin id replies db with
  | (none, db) => (none, db)
  | (some key, db) =>
    if svc.isKeyExpiredForEvent db origin id eventTs then (none, db)
    else if policy = .enforce then
      let (valid, db) := svc.isKeyValidForEvent origin id eventTs replies db
      (if valid then some key else none, db)
    else (some key, db)

/-- The keys for an event of this time, each asked id with what the network
answers for it, and the records afterwards. -/
def KeyService.getPubkeysForEvent (origin : ServerName) (eventTs : Nat) (policy : ValidUntilPolicy) :
    List (KeyId × KeyReplies Raw) → BTreeMap KeyId VerifyKey → (ServerName → KeyRecords Raw) →
      BTreeMap KeyId VerifyKey × (ServerName → KeyRecords Raw)
  | [], keys, db => (keys, db)
  | (id, replies) :: asked, keys, db =>
    match svc.pubkeyForEvent origin eventTs policy id replies db with
    | (some key, db) => getPubkeysForEvent origin eventTs policy asked (keys.insert id key) db
    | (none, db) => getPubkeysForEvent origin eventTs policy asked keys db

end

/-! ## Retirement -/

section
variable {Raw : Type}

def KeyRecords.RetiredBy (r : KeyRecords Raw) (id : KeyId) (ts : Nat) : Prop :=
  ∃ h k, r.historical = some h ∧ h.oldVerifyKeys.lookup id = some k ∧ k.expiredTs ≤ ts

/-- The payload of the origin says so, or leaves the id out at a time that is not
later. -/
def Retires (deserialize : Raw → Except String ServerSigningKeys) (origin : ServerName) (raw : Raw) (t : Timing)
    (id : KeyId) (ts : Nat) : Prop :=
  ∃ keys, deserialize raw = .ok keys ∧ keys.serverName = origin ∧
    ((∃ k, (dropMalformed t.nowPlusSkew keys).oldVerifyKeys.lookup id = some k ∧ k.expiredTs ≤ ts) ∨
      (keys.verifyKeys.lookup id = none ∧ t.now ≤ ts))

def PayloadsDecoded (deserialize : Raw → Except String ServerSigningKeys)
    (db : ServerName → KeyRecords Raw) : Prop :=
  ∀ origin raw, (db origin).notary = some raw → ∃ keys, deserialize raw = .ok keys

variable {svc : KeyService Raw} {origin : ServerName}

theorem addSigningKeys_decodable {o : Observation Raw} {db db' : ServerName → KeyRecords Raw}
    {ret : ServerSigningKeys}
    (hdb : PayloadsDecoded svc.deserialize db) (h : addSigningKeys svc.deserialize o db = .ok (ret, db')) :
    PayloadsDecoded svc.deserialize db' := by
  obtain ⟨keys, new, hkeys, -, -, -, rfl⟩ := addSigningKeys_ok h
  intro origin raw hraw
  rw [Function.update_apply] at hraw
  split at hraw
  · simp only [Observation.written] at hraw
    split at hraw
    · obtain rfl := Option.some.inj hraw
      exact ⟨keys, hkeys⟩
    · exact hdb _ raw hraw
  · exact hdb _ raw hraw

theorem observeAll_decodable (os : List (Observation Raw)) :
    PayloadsDecoded svc.deserialize (observeAll svc.deserialize (fun _ => {}) os) := by
  induction os using List.reverseRecOn with
  | nil =>
    intro origin raw h
    cases h
  | append_singleton os o ih =>
    rw [observeAll, List.foldl_append]
    show PayloadsDecoded _ (observe _ _ _)
    unfold observe
    split
    · rename_i h
      exact addSigningKeys_decodable ih h
    · exact ih

theorem addSigningKeys_retiredBy {source : FetchSource} {raw : Raw} {t : Timing}
    {db db' : ServerName → KeyRecords Raw} {ret : ServerSigningKeys} {id : KeyId} {ts : Nat}
    (h : addSigningKeys svc.deserialize (svc.observation source raw t) db = .ok (ret, db'))
    (hr : (db' origin).RetiredBy id ts) : (db origin).RetiredBy id ts ∨ Retires svc.deserialize
      origin raw t id ts := by
  obtain ⟨keys, new, hkeys, hnew, -, -, rfl⟩ := addSigningKeys_ok h
  rw [Function.update_apply] at hr
  split at hr
  · rename_i horigin
    obtain ⟨h', k, hh, hk, hts⟩ := hr
    obtain rfl := Option.some.inj hh
    have hk := (written_oldVerifyKeys.mp hk).1
    have hret : ((∃ k, new.oldVerifyKeys.lookup id = some k ∧ k.expiredTs ≤ ts) ∨
        (new.verifyKeys.lookup id = none ∧ t.now ≤ ts)) → Retires svc.deserialize origin raw t id ts := by
      intro hp
      exact ⟨keys, hkeys, by rw [horigin, hnew]; rfl, by rw [hnew] at hp; exact hp⟩
    rcases mergeKeys_oldVerifyKeys_cases hk with hk | hk
    · rcases retiredFrom_cases hk with ⟨hk, -⟩ | ⟨v, -, rfl, -, hn⟩
      · left
        rw [horigin]
        unfold KeyRecords.historicalOr at hk
        cases hh : (db new.serverName).historical with
        | none => simp [hh] at hk
        | some h =>
          rw [hh, Option.getD_some] at hk
          exact ⟨h, k, hh, hk, hts⟩
      · exact .inr (hret (.inr ⟨hn, hts⟩))
    · exact .inr (hret (.inl ⟨k, filtered_oldVerifyKeys_sub _ _ _ hk, hts⟩))
  · exact .inl hr

/-! ## Which payloads are added -/

/-- The records change by adding such payloads only. -/
inductive KeyService.Adds (svc : KeyService Raw) (doc : Raw → Timing → Prop) :
    (ServerName → KeyRecords Raw) → (ServerName → KeyRecords Raw) → Prop
  | refl (db : ServerName → KeyRecords Raw) : Adds svc doc db db
  | tail {db db' db'' : ServerName → KeyRecords Raw} {source : FetchSource} {raw : Raw} {t : Timing}
      {ret : ServerSigningKeys} : Adds svc doc db db' → doc raw t →
      addSigningKeys svc.deserialize (svc.observation source raw t) db' = .ok (ret, db'') → Adds svc doc db db''

variable {doc : Raw → Timing → Prop} {db db' db'' : ServerName → KeyRecords Raw} {id : KeyId} {ts : Nat}

theorem KeyService.Adds.trans (h : svc.Adds doc db db') (h' : svc.Adds doc db' db'') : svc.Adds doc db db'' := by
  induction h' with
  | refl => exact h
  | tail _ hd hs ih => exact .tail ih hd hs

theorem KeyService.Adds.mono {doc' : Raw → Timing → Prop} (h : svc.Adds doc db db')
    (hd : ∀ raw t, doc raw t → doc' raw t) : svc.Adds doc' db db' := by
  induction h with
  | refl => exact .refl _
  | tail _ hdoc hs ih => exact .tail ih (hd _ _ hdoc) hs

theorem KeyService.Adds.decoded (h : svc.Adds doc db db') (hdb : PayloadsDecoded svc.deserialize db) :
    PayloadsDecoded svc.deserialize db' := by
  induction h with
  | refl => exact hdb
  | tail _ _ hs ih => exact addSigningKeys_decodable ih hs

theorem KeyService.Adds.not_retiredBy (h : svc.Adds doc db db')
    (hd : ∀ raw t, doc raw t → ¬ Retires svc.deserialize origin raw t id ts) (hdb : ¬ (db origin).RetiredBy id ts) :
    ¬ (db' origin).RetiredBy id ts := by
  induction h with
  | refl => exact hdb
  | tail _ hdoc hs ih =>
    intro hr
    rcases addSigningKeys_retiredBy hs hr with hr | hr
    · exact ih hr
    · exact hd _ _ hdoc hr

/-- The documents that looking up a key may add. -/
def KeyReplies.Looked (replies : KeyReplies Raw) (raw : Raw) (t : Timing) : Prop :=
  (raw, t) ∈ replies.notaries ∨ replies.origin = some (raw, t)

/-- The document that a refresh may add. -/
def KeyReplies.Refreshed (replies : KeyReplies Raw) (raw : Raw) (t : Timing) : Prop :=
  replies.refresh = some raw ∧ t = replies.refreshTiming

theorem getVerifyKeyFromNotaries_adds (id : KeyId) : ∀ (docs : List (Raw × Timing))
    (db : ServerName → KeyRecords Raw),
    svc.Adds (fun raw t => (raw, t) ∈ docs) db (svc.getVerifyKeyFromNotaries id docs db).2
  | [], db => .refl db
  | (raw, t) :: docs, db => by
    have hmono : ∀ {db db'}, svc.Adds (fun raw t => (raw, t) ∈ docs) db db' →
        svc.Adds (fun raw' t' => (raw', t') ∈ (raw, t) :: docs) db db' :=
      fun h => h.mono fun _ _ hd => by simp [hd]
    rw [KeyService.getVerifyKeyFromNotaries]
    split
    · exact hmono (getVerifyKeyFromNotaries_adds id docs db)
    · rename_i patched db' h
      have hadd : svc.Adds (fun raw' t' => (raw', t') ∈ (raw, t) :: docs) db db' := .tail (.refl db) (by simp) h
      split
      · exact hadd
      · exact hadd.trans (hmono (getVerifyKeyFromNotaries_adds id docs db'))

theorem serverRequest_some {reply : Option Raw} {raw : Raw} (h : svc.serverRequest origin reply = some raw) :
    reply = some raw :=
  (Option.filter_eq_some_iff.mp h).1

theorem getVerifyKeyFromOrigin_adds (reply : Option (Raw × Timing)) (db : ServerName → KeyRecords Raw) :
    svc.Adds (fun raw t => reply = some (raw, t)) db (svc.getVerifyKeyFromOrigin origin id reply db).2 := by
  unfold KeyService.getVerifyKeyFromOrigin
  split
  · exact .refl db
  · rename_i raw t
    split
    · exact .refl db
    · rename_i raw' hraw
      obtain rfl := Option.some.inj (serverRequest_some hraw)
      split
      · exact .refl db
      · rename_i h
        exact .tail (.refl db) rfl h

variable (svc origin id) in
theorem getVerifyKey_adds (replies : KeyReplies Raw) (db : ServerName → KeyRecords Raw) :
    svc.Adds replies.Looked db (svc.getVerifyKey origin id replies db).2 := by
  have hnotaries : ∀ db, svc.Adds replies.Looked db
      (svc.getVerifyKeyFromNotaries id (svc.notaryDocuments replies) db).2 := by
    intro db
    apply (getVerifyKeyFromNotaries_adds id _ db).mono
    intro raw t h
    exact .inl (List.mem_filter.mp h).1
  have horigin : ∀ db, svc.Adds replies.Looked db (svc.getVerifyKeyFromOrigin origin id replies.origin db).2 :=
    fun db => (getVerifyKeyFromOrigin_adds _ db).mono fun _ _ h => .inr h
  unfold KeyService.getVerifyKey
  split
  · exact .refl db
  · by_cases hfirst : svc.queryTrustedKeyServersFirst = true
    · simp only [hfirst, if_true]
      split
      · exact hnotaries db
      · by_cases honly : svc.onlyQueryTrustedKeyServers = true
        · simp only [honly, if_true, Option.isSome_none, Bool.false_eq_true, if_false]
          exact hnotaries db
        · simp only [honly, if_false, Bool.false_eq_true]
          split
          · exact (hnotaries db).trans (horigin _)
          · exact (hnotaries db).trans (horigin _)
    · simp only [hfirst, Bool.false_eq_true, if_false, Option.isSome_none]
      by_cases honly : svc.onlyQueryTrustedKeyServers = true
      · simp only [honly, if_true, Option.isSome_none, Bool.false_eq_true, if_false]
        exact hnotaries db
      · simp only [honly, if_false, Bool.false_eq_true]
        split
        · exact horigin db
        · exact (horigin db).trans (hnotaries _)

variable (svc origin id ts) in
/-- The refresh is asked for only when the stored payload is stale, so what is
added is the origin's answer. -/
theorem isKeyValidForEvent_adds (replies : KeyReplies Raw) (db : ServerName → KeyRecords Raw) :
    svc.Adds replies.Refreshed db (svc.isKeyValidForEvent origin id ts replies db).2 := by
  unfold KeyService.isKeyValidForEvent
  split
  · exact .refl db
  · rename_i cached hcached
    split
    · exact .refl db
    · rename_i hcovers
      split
      · exact .refl db
      · rename_i raw hraw
        have hrefresh : replies.refresh = some raw := by
          unfold KeyService.serverRequestCoalesced at hraw
          have hstale : cached.validUntilTs < ts := by
            simp only [coversEvent, Bool.or_eq_true, decide_eq_true_eq, not_or, not_le] at hcovers
            exact hcovers.2
          split at hraw
          · cases hraw
          · simp only [hcached, hstale, decide_true, Bool.not_true, Bool.and_false, Bool.false_eq_true,
              if_false] at hraw
            exact serverRequest_some hraw
        split
        · exact .refl db
        · rename_i db' h
          have hadd : svc.Adds replies.Refreshed db db' := .tail (.refl db) ⟨hrefresh, rfl⟩ h
          split
          · exact hadd
          · exact hadd

/-! ## The expiry check -/

theorem isKeyExpiredForEvent_of_retiredBy (hdb : PayloadsDecoded svc.deserialize db)
    (hn : (db origin).notary.isSome) (h : (db origin).RetiredBy id ts) :
    svc.isKeyExpiredForEvent db origin id ts = true := by
  obtain ⟨raw, hraw⟩ := Option.isSome_iff_exists.mp hn
  obtain ⟨keys, hkeys⟩ := hdb origin raw hraw
  obtain ⟨historical, k, hh, hk, hts⟩ := h
  simp [KeyService.isKeyExpiredForEvent, mergedSigningKeysFor, rawSigningKeysFor, hraw, hkeys, hh, hk, hts]

section
variable (svc) (origin) (ts) (policy : ValidUntilPolicy)

/-- Whenever a key is found that the record has retired by then, a served
payload is stored. -/
def KeyService.Checkable : List (KeyId × KeyReplies Raw) → (ServerName → KeyRecords Raw) → Prop
  | [], _ => True
  | (id, replies) :: asked, db =>
    let looked := svc.getVerifyKey origin id replies db
    (looked.1.isSome → (looked.2 origin).RetiredBy id ts → (looked.2 origin).notary.isSome) ∧
      KeyService.Checkable asked (svc.pubkeyForEvent origin ts policy id replies db).2

/-- No document fetched after a key was looked up retires it by then: neither
its refresh nor one fetched for a later key. -/
def KeyService.Prompt : List (KeyId × KeyReplies Raw) → Prop
  | [] => True
  | (id, replies) :: asked =>
    (∀ raw t, replies.Refreshed raw t → ¬ Retires svc.deserialize origin raw t id ts) ∧
      (∀ a ∈ asked, ∀ raw t, a.2.Looked raw t ∨ a.2.Refreshed raw t → ¬ Retires svc.deserialize
        origin raw t id ts) ∧
      KeyService.Prompt asked

end

variable {policy : ValidUntilPolicy}

variable (svc origin id ts policy) in
theorem pubkeyForEvent_adds (replies : KeyReplies Raw) (db : ServerName → KeyRecords Raw) :
    svc.Adds (fun raw t => replies.Looked raw t ∨ replies.Refreshed raw t) db
      (svc.pubkeyForEvent origin ts policy id replies db).2 := by
  have hlook : svc.Adds (fun raw t => replies.Looked raw t ∨ replies.Refreshed raw t) db
      (svc.getVerifyKey origin id replies db).2 :=
    (getVerifyKey_adds svc origin id replies db).mono fun _ _ h => .inl h
  unfold KeyService.pubkeyForEvent
  split
  · rename_i h
    rwa [h] at hlook
  · rename_i key db' h
    rw [h] at hlook
    split
    · exact hlook
    · split
      · exact hlook.trans ((isKeyValidForEvent_adds svc origin id ts replies _).mono fun _ _ h => .inr h)
      · exact hlook

theorem pubkeyForEvent_not_retiredBy {replies : KeyReplies Raw} {key : VerifyKey}
    (hdb : PayloadsDecoded svc.deserialize db)
    (hck : (svc.getVerifyKey origin id replies db).1.isSome →
      ((svc.getVerifyKey origin id replies db).2 origin).RetiredBy id ts →
      ((svc.getVerifyKey origin id replies db).2 origin).notary.isSome)
    (hp : ∀ raw t, replies.Refreshed raw t → ¬ Retires svc.deserialize origin raw t id ts)
    (h : svc.pubkeyForEvent origin ts policy id replies db = (some key, db')) : ¬ (db' origin).RetiredBy id ts := by
  have hdec := (getVerifyKey_adds svc origin id replies db).decoded hdb
  unfold KeyService.pubkeyForEvent at h
  split at h
  · cases h
  · rename_i key' db₁ hlook
    rw [hlook] at hck hdec
    split at h
    · cases h
    · rename_i hexp
      have hret : ¬ (db₁ origin).RetiredBy id ts := by
        intro hr
        exact hexp (isKeyExpiredForEvent_of_retiredBy hdec (hck rfl hr) hr)
      split at h
      · have hadd := isKeyValidForEvent_adds svc origin id ts replies db₁
        simp only [Prod.mk.injEq] at h
        rw [h.2] at hadd
        exact hadd.not_retiredBy hp hret
      · simp only [Prod.mk.injEq] at h
        rw [← h.2]
        exact hret

theorem getPubkeysForEvent_not_retiredBy : ∀ (asked : List (KeyId × KeyReplies Raw))
    (keys : BTreeMap KeyId VerifyKey)
    (db : ServerName → KeyRecords Raw), PayloadsDecoded svc.deserialize db →
      (∀ id ∈ keys, ¬ (db origin).RetiredBy id ts ∧ ∀ a ∈ asked, ∀ raw t, a.2.Looked raw t ∨ a.2.Refreshed raw t →
        ¬ Retires svc.deserialize origin raw t id ts) →
      svc.Prompt origin ts asked → svc.Checkable origin ts policy asked db →
      ∀ id ∈ (svc.getPubkeysForEvent origin ts policy asked keys db).1,
        ¬ ((svc.getPubkeysForEvent origin ts policy asked keys db).2 origin).RetiredBy id ts
  | [], keys, db, _, hkeys, _, _ => fun id hid => (hkeys id hid).1
  | (id, replies) :: asked, keys, db, hdb, hkeys, hp, hck => by
    have hadd := pubkeyForEvent_adds svc origin id ts policy replies db
    have hkept : ∀ id' ∈ keys, ¬ ((svc.pubkeyForEvent origin ts policy id replies db).2 origin).RetiredBy id' ts ∧
        ∀ a ∈ asked, ∀ raw t, a.2.Looked raw t ∨ a.2.Refreshed raw t →
          ¬ Retires svc.deserialize origin raw t id' ts := by
      intro id' hid'
      obtain ⟨hr, hd⟩ := hkeys id' hid'
      exact ⟨hadd.not_retiredBy (hd (id, replies) (by simp)) hr, fun a ha => hd a (by simp [ha])⟩
    have hck' := hck.2
    rw [KeyService.getPubkeysForEvent]
    split
    · rename_i key db' hstep
      rw [hstep] at hadd hkept hck'
      refine getPubkeysForEvent_not_retiredBy asked _ db' (hadd.decoded hdb) ?_ hp.2.2 hck'
      intro id' hid'
      rcases (AList.mem_insert keys).mp hid' with rfl | hid'
      · exact ⟨pubkeyForEvent_not_retiredBy hdb hck.1 hp.1 hstep, hp.2.1⟩
      · exact hkept id' hid'
    · rename_i db' hstep
      rw [hstep] at hadd hkept hck'
      exact getPubkeysForEvent_not_retiredBy asked keys db' (hadd.decoded hdb) hkept hp.2.2 hck'

/-- From any records that payloads lead to, no key is given out for an event at
or after its recorded retirement, when a served payload is stored at each look at
a retirement and nothing fetched later retires a key that was looked at. -/
theorem event_keys_not_retired (svc : KeyService Raw) (os : List (Observation Raw)) (origin : ServerName)
    (asked : List (KeyId × KeyReplies Raw)) (ts : Nat) (policy : ValidUntilPolicy)
    (hck : svc.Checkable origin ts policy asked (observeAll svc.deserialize (fun _ => {}) os))
    (hp : svc.Prompt origin ts asked) :
    let result := svc.getPubkeysForEvent origin ts policy asked ∅ (observeAll svc.deserialize (fun _ => {}) os)
    ∀ id key, result.1.lookup id = some key → ¬ (result.2 origin).RetiredBy id ts := by
  intro result id key hkey
  exact getPubkeysForEvent_not_retiredBy asked ∅ _ (observeAll_decodable os)
    (fun _ h => absurd h (by simp)) hp hck id
    (AList.lookup_isSome.mp (by rw [hkey]; rfl))

/-- A server that takes every payload as it comes. -/
def plainKeyService : KeyService ServerSigningKeys := { deserialize := Except.ok }

/-- Nobody answers. -/
def noReplies : KeyReplies ServerSigningKeys where
  refreshTiming := { nowPlusSkew := 0, now := 0 }

theorem rotated_key_not_given :
    let db := observeAll Except.ok (fun _ => {})
      [fetchedAt 2000 (keyPayload [("ed25519:b", "BBB")] [("ed25519:a", "AAA", 1000)] 9000)]
    let result := plainKeyService.getPubkeysForEvent "origin.example" 1500 .enforce
      [("ed25519:a", noReplies), ("ed25519:b", noReplies)] ∅ db
    ∀ id key, result.1.lookup id = some key → ¬ (result.2 "origin.example").RetiredBy id 1500 :=
  event_keys_not_retired plainKeyService _ "origin.example" _ 1500 .enforce
    ⟨fun _ _ => rfl, fun _ _ => rfl, trivial⟩
    ⟨fun _ _ h => absurd h.1 (by simp [noReplies]),
      fun a ha raw t h => by
        simp only [List.mem_singleton] at ha
        subst ha
        simp [KeyReplies.Looked, KeyReplies.Refreshed, noReplies] at h,
      fun _ _ h => absurd h.1 (by simp [noReplies]), fun _ h => absurd h (by simp), trivial⟩

/-- After a first payload with a malformed retired key no served payload is
stored, and the other retired key is given out for a later event. -/
theorem retired_key_given :
    let db := observeAll Except.ok (fun _ => {})
      [fetchedAt 2000 (keyPayload [("ed25519:b", "BBB")]
        [("ed25519:a", "AAA", 1000), ("ed25519:m", "MMM", 999999999)] 9000)]
    let result := plainKeyService.getPubkeysForEvent "origin.example" 1500 (validityPolicyForVersion .V11)
      [("ed25519:a", noReplies)] ∅ db
    result.1.lookup "ed25519:a" = some ⟨"AAA"⟩ ∧ (result.2 "origin.example").RetiredBy "ed25519:a" 1500 :=
  ⟨by decide, _, ⟨"AAA", 1000⟩, rfl, by decide, by decide⟩

end

end Congruent
