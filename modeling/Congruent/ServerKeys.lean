import Mathlib.Data.Finset.Union
import Mathlib.Data.String.Basic
import Congruent.Event
import Congruent.KeyedMap

/-!
# Signing keys of other servers (`server_keys/mod.rs`)

The records kept for an origin: the cumulative historical record, the key ids
learned only through a notary (provisional), those seen active (corroborated),
and the last payload that may be served again. `add_signing_keys` merges a new
payload into them.
-/

namespace Congruent

abbrev KeyId := String

structure VerifyKey where
  key : String
  deriving DecidableEq, Repr

structure OldVerifyKey where
  key : String
  expiredTs : Nat
  deriving DecidableEq, Repr

/-- The fields of a key payload that are read here. -/
structure ServerSigningKeys where
  serverName : ServerName
  verifyKeys : BTreeMap KeyId VerifyKey := ∅
  oldVerifyKeys : BTreeMap KeyId OldVerifyKey := ∅
  validUntilTs : Nat

/-- Where a key observation came from. -/
inductive FetchSource where
  | direct
  | notary
  deriving DecidableEq, Repr

inductive KeyError where
  | badServerResponse (text : String)
  | invalidParam (text : String)
  | notFound (text : String)
  | database (text : String)
  deriving DecidableEq, Repr

def KeyError.isNotFound : KeyError → Bool
  | notFound _ => true
  | _ => false

def retiredKeyCeiling : Nat := 3000

/-- The four records of an origin. An empty set is stored as no record. -/
structure KeyRecords (Raw : Type) where
  historical : Option ServerSigningKeys := none
  provisional : Finset KeyId := ∅
  corroborated : Finset KeyId := ∅
  notary : Option Raw := none

/-- One call: the payload and where it is from, whether strict caching is on,
the two readings of the clock, and whether the database answers. -/
structure Observation (Raw : Type) where
  raw : Raw
  source : FetchSource
  enforceFsw : Bool := true
  nowPlusSkew : Nat
  now : Nat
  persisted : Bool := true

/-! ## Checks of the payload -/

def expiredInFuture (nowPlusSkew : Nat) (k : OldVerifyKey) : Bool := nowPlusSkew < k.expiredTs

def dropMalformed (nowPlusSkew : Nat) (keys : ServerSigningKeys) : ServerSigningKeys :=
  { keys with oldVerifyKeys := keys.oldVerifyKeys.retain fun _ k => !expiredInFuture nowPlusSkew k }

def oldKeysFiltered (nowPlusSkew : Nat) (keys : ServerSigningKeys) : Bool :=
  keys.oldVerifyKeys.entries.any fun e => expiredInFuture nowPlusSkew e.2

def intraPayloadCollision (keys : ServerSigningKeys) : Bool :=
  keys.verifyKeys.entries.any fun e =>
    match keys.oldVerifyKeys.lookup e.1 with
    | some old => e.2.key != old.key
    | none => false

/-! ## Collisions with the historical record -/

/-- What the two collision loops work on. -/
structure Filtered where
  verifyKeys : BTreeMap KeyId VerifyKey
  oldVerifyKeys : BTreeMap KeyId OldVerifyKey
  provisional : Finset KeyId
  rejectedCollision : Bool := false

/-- One round of the loop over the payload's active keys. -/
def checkActive (historical : ServerSigningKeys) (source : FetchSource) (enforceFsw : Bool) (f : Filtered)
    (e : Σ _ : KeyId, VerifyKey) : Filtered :=
  match historical.verifyKeys.lookup e.1 with
  | some existing =>
    if existing.key = e.2.key then f
    -- a direct fetch overrides a binding that is still provisional
    else if source = .direct ∧ e.1 ∈ f.provisional then { f with provisional := f.provisional.erase e.1 }
    else if enforceFsw then { f with rejectedCollision := true, verifyKeys := f.verifyKeys.erase e.1 }
    else f
  | none =>
    match historical.oldVerifyKeys.lookup e.1 with
    | some existing =>
      if existing.key = e.2.key then f
      else if enforceFsw then { f with rejectedCollision := true, verifyKeys := f.verifyKeys.erase e.1 }
      else f
    | none => f

/-- One round of the loop over the payload's retired keys. -/
def checkRetired (historical : ServerSigningKeys) (enforceFsw : Bool) (f : Filtered)
    (e : Σ _ : KeyId, OldVerifyKey) : Filtered :=
  match historical.verifyKeys.lookup e.1 with
  | some existing =>
    if existing.key = e.2.key then f
    else if enforceFsw then { f with rejectedCollision := true, oldVerifyKeys := f.oldVerifyKeys.erase e.1 }
    else f
  | none =>
    match historical.oldVerifyKeys.lookup e.1 with
    | some existing =>
      if existing.key = e.2.key then f
      else if enforceFsw then { f with rejectedCollision := true, oldVerifyKeys := f.oldVerifyKeys.erase e.1 }
      else f
    | none => f

def filterCollisions (historical new : ServerSigningKeys) (provisional : Finset KeyId) (source : FetchSource)
    (enforceFsw : Bool) : Filtered :=
  let f := new.verifyKeys.entries.foldl (checkActive historical source enforceFsw)
    { verifyKeys := new.verifyKeys, oldVerifyKeys := new.oldVerifyKeys, provisional }
  new.oldVerifyKeys.entries.foldl (checkRetired historical enforceFsw) f

/-! ## Merge -/

/-- The active keys of the record that the payload leaves out; a payload with a
rejected collision retires none. -/
def retiredByOmission (verifyKeys : BTreeMap KeyId VerifyKey) (new : ServerSigningKeys) (rejected : Bool) :
    BTreeMap KeyId VerifyKey :=
  verifyKeys.retain fun id _ => !rejected && (new.verifyKeys.lookup id).isNone

/-- The historical record with what passed the collision checks, before the
ceiling on retired keys is applied. -/
def mergeKeys (historical new : ServerSigningKeys) (f : Filtered) (now : Nat) (enforceFsw : Bool) :
    ServerSigningKeys :=
  let old := historical.oldVerifyKeys.retain fun id _ => (f.verifyKeys.lookup id).isNone
  let verify := historical.verifyKeys.retain fun id _ => (f.oldVerifyKeys.lookup id).isNone
  let retired := retiredByOmission verify new f.rejectedCollision
  let verify := verify.retain fun id _ => (retired.lookup id).isNone
  let old := old ∪ retired.mapValues fun _ k => { key := k.key, expiredTs := now }
  { historical with
    verifyKeys := f.verifyKeys ∪ verify
    oldVerifyKeys := if enforceFsw then old ∪ f.oldVerifyKeys else f.oldVerifyKeys ∪ old }

/-! ## Eviction -/

/-- Most recently retired first, the smaller id on a tie. -/
def byRecency (a b : Σ _ : KeyId, OldVerifyKey) : Prop :=
  b.2.expiredTs < a.2.expiredTs ∨ (b.2.expiredTs = a.2.expiredTs ∧ a.1 ≤ b.1)

instance : DecidableRel byRecency := fun a b =>
  inferInstanceAs (Decidable (b.2.expiredTs < a.2.expiredTs ∨ (b.2.expiredTs = a.2.expiredTs ∧ a.1 ≤ b.1)))

def retentionOrder (oldVerifyKeys : BTreeMap KeyId OldVerifyKey) (corroborated : Finset KeyId) :
    List (Σ _ : KeyId, OldVerifyKey) :=
  let tiers := oldVerifyKeys.entries.partition fun e => e.1 ∈ corroborated
  tiers.1.insertionSort byRecency ++ tiers.2.insertionSort byRecency

def selectOldVerifyKeysToEvict (oldVerifyKeys : BTreeMap KeyId OldVerifyKey) (corroborated : Finset KeyId)
    (cap : Nat) : List KeyId :=
  if oldVerifyKeys.entries.length ≤ cap then []
  else ((retentionOrder oldVerifyKeys corroborated).drop cap).map fun e => e.1

/-! ## First seen wins -/

def firstSeen (historical : ServerSigningKeys) (id : KeyId) : Option String :=
  ((historical.verifyKeys.lookup id).map fun k => k.key).or
    ((historical.oldVerifyKeys.lookup id).map fun k => k.key)

def patchFirstSeen (historical new : ServerSigningKeys) : ServerSigningKeys :=
  { new with
    verifyKeys := new.verifyKeys.mapValues fun id k => { k with key := (firstSeen historical id).getD k.key }
    oldVerifyKeys := new.oldVerifyKeys.mapValues fun id k =>
      { k with key := (firstSeen historical id).getD k.key } }

/-- The ids of a payload or record. -/
def ServerSigningKeys.ids (keys : ServerSigningKeys) : Finset KeyId :=
  keys.verifyKeys.keys.toFinset ∪ keys.oldVerifyKeys.keys.toFinset

section
variable {Raw : Type} (o : Observation Raw) (new : ServerSigningKeys) (r : KeyRecords Raw)

/-- A never-seen origin starts with an empty record. -/
def KeyRecords.historicalOr : ServerSigningKeys :=
  r.historical.getD { serverName := new.serverName, validUntilTs := o.now }

def Observation.filtered : Filtered :=
  filterCollisions (r.historicalOr o new) new r.provisional o.source o.enforceFsw

/-- The merged record, retired keys above the ceiling included. -/
def Observation.merged : ServerSigningKeys :=
  mergeKeys (r.historicalOr o new) new (o.filtered new r) o.now o.enforceFsw

/-- The ids seen active, this payload's included. -/
def Observation.corroborated : Finset KeyId :=
  r.corroborated ∪ (o.filtered new r).verifyKeys.keys.toFinset

def Observation.evicted : List KeyId :=
  selectOldVerifyKeysToEvict (o.merged new r).oldVerifyKeys (o.corroborated new r) retiredKeyCeiling

def ServerSigningKeys.withoutEvicted (evicted : List KeyId) (keys : ServerSigningKeys) : ServerSigningKeys :=
  { keys with oldVerifyKeys := keys.oldVerifyKeys.retain fun id _ => id ∉ evicted }

/-- What a payload that is decoded and free of collisions of its own makes
`add_signing_keys_sync` return. -/
def Observation.returned : ServerSigningKeys :=
  let new' := new.withoutEvicted (o.evicted new r)
  if o.enforceFsw then patchFirstSeen ((o.merged new r).withoutEvicted (o.evicted new r)) new' else new'

def Observation.learned : Finset KeyId :=
  if o.source = .notary then
    (new.withoutEvicted (o.evicted new r)).ids.filter fun id => id ∉ (r.historicalOr o new).ids
  else ∅

/-- `write_key_records`. Only a payload that was taken over whole may be served
again. -/
def Observation.written (oldKeysFiltered : Bool) : KeyRecords Raw where
  historical := some ((o.merged new r).withoutEvicted (o.evicted new r))
  provisional := (o.filtered new r).provisional \ (o.evicted new r).toFinset ∪ o.learned new r
  corroborated := o.corroborated new r \ (o.evicted new r).toFinset
  notary := if !(o.filtered new r).rejectedCollision && !oldKeysFiltered then some o.raw else r.notary

end

section
variable {Raw : Type} (deserialize : Raw → Except String ServerSigningKeys)

/-- `add_signing_keys` on the records of the origin the payload names. -/
def addSigningKeys (o : Observation Raw) (db : ServerName → KeyRecords Raw) :
    Except KeyError (ServerSigningKeys × (ServerName → KeyRecords Raw)) :=
  match deserialize o.raw with
  | .error e => .error (.badServerResponse e)
  | .ok keys =>
    let new := dropMalformed o.nowPlusSkew keys
    if intraPayloadCollision new then .error (.invalidParam "Intra-payload Key ID collision detected")
    else if !o.persisted then .error (.database "Failed to persist mtxdb historical keys")
    else
      let r := db new.serverName
      .ok (o.returned new r,
        Function.update db new.serverName (o.written new r (oldKeysFiltered o.nowPlusSkew keys)))

/-- The records after a call; one that fails changes nothing. -/
def observe (db : ServerName → KeyRecords Raw) (o : Observation Raw) : ServerName → KeyRecords Raw :=
  match addSigningKeys deserialize o db with
  | .ok (_, db') => db'
  | .error _ => db

/-- The records after a sequence of calls. -/
def observeAll (db : ServerName → KeyRecords Raw) (os : List (Observation Raw)) : ServerName → KeyRecords Raw :=
  os.foldl (observe deserialize) db

/-! ## Serving -/

def rawSigningKeysFor (db : ServerName → KeyRecords Raw) (origin : ServerName) : Except KeyError Raw :=
  match (db origin).notary with
  | some raw => .ok raw
  | none => .error (.notFound ("No signing-key record for " ++ origin))

/-- The last payload that may be served, with the retired keys of the
historical record. -/
def mergedSigningKeysFor (db : ServerName → KeyRecords Raw) (origin : ServerName) :
    Except KeyError ServerSigningKeys :=
  match rawSigningKeysFor db origin with
  | .error e => .error e
  | .ok raw =>
    match deserialize raw with
    | .error e => .error (.badServerResponse e)
    | .ok keys =>
      match (db origin).historical with
      | some historical => .ok { keys with oldVerifyKeys := historical.oldVerifyKeys ∪ keys.oldVerifyKeys }
      | none => .ok keys

end

end Congruent
