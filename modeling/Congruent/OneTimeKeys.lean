import Congruent.DeviceKeyUpdates
import Congruent.MutexMap

/-!
# One-time keys (`add_one_time_key`, `add_fallback_key`, `take_one_time_key`)

A claim holds the lock of its device while it takes the first key of the algorithm, or the
fallback key. Uploads do not take the lock.
-/

namespace Congruent.OneTimeKeys

open DeviceKeyUpdates (nextCountBatch nextCountBatch_eq_some)

/-- A user and one of the user's devices. -/
abbrev Device := String ×ₗ String

/-- The algorithm and the name, as `algorithm:name`. -/
abbrev KeyId := String

/-- The rows stand under the device, the count of the upload and the key id. -/
abbrev Key := Device ×ₗ Nat ×ₗ KeyId

abbrev Table := SortedMap Key String

def ofAlgorithm (algorithm : String) (keyId : KeyId) : Bool := (algorithm ++ ":").toList.isPrefixOf keyId.toList

section
variable (parses decodes : String → Bool)

def firstKey (t : Table) (device : Device) (algorithm : String) : Option (Key × String) :=
  t.entries.find? fun row => (ofLex row.1).1 = device && parses (ofLex (ofLex row.1).2).2 &&
    ofAlgorithm algorithm (ofLex (ofLex row.1).2).2 && decodes row.2

end

def alreadyExists (t : Table) (device : Device) (keyId : KeyId) : Bool :=
  t.entries.any fun row => (ofLex row.1).1 = device && (ofLex (ofLex row.1).2).2 = keyId

def lockKey (device : Device) : String := (ofLex device).1 ++ "\x00" ++ (ofLex device).2

/-! ## Claims and uploads -/

/-- What a claim does next; `i` is its lock. -/
inductive Stage where
  | called
  | count (count : Nat)
  | lock
  | wait (i : Nat)
  | scan (i : Nat)
  | remove (i : Nat) (key : Key) (value : String)
  | fallback (i : Nat)
  | mark (i : Nat) (keyId : KeyId) (value : String)
  | returning (i : Nat) (answer : Option (KeyId × String))
  | leaving (i : Nat)
  | finished
  deriving DecidableEq

structure Claim where
  device : Device
  algorithm : String
  stage : Stage

inductive UploadStage where
  | called
  | check
  | draw
  | put (count : Nat)
  | announce (count : Nat)
  | finished
  deriving DecidableEq

/-- A call of `add_one_time_key`. -/
structure Upload where
  device : Device
  keyId : KeyId
  value : String
  stage : UploadStage

structure World where
  counter : Nat
  userdeviceidMetadata : List Device
  onetimekeyidOnetimekeys : Table
  fallbackkeyidFallbackkey : SortedMap (Device ×ₗ String) (Bool × KeyId × String)
  useridLastonetimekeyupdate : SortedMap String Nat
  locks : MutexMap String
  claims : List Claim
  uploads : List Upload
  /-- All rows ever put, and the rows that claims took. -/
  uploaded : List Key
  taken : List Key

namespace World

def new : World := ⟨0, [], .empty, .empty, .empty, .new, [], [], [], []⟩

def setClaim (s : World) (k : Nat) (c : Claim) (stage : Stage) : World :=
  { s with claims := s.claims.set k { c with stage := stage } }

def setUpload (s : World) (j : Nat) (u : Upload) (stage : UploadStage) : World :=
  { s with uploads := s.uploads.set j { u with stage := stage } }

end World

/-- `add_fallback_key`. -/
def addFallbackKey (s : World) (device : Device) (algorithm : String) (keyId : KeyId)
    (value : String) (used : Bool) :
    Option World :=
  if device ∈ s.userdeviceidMetadata then
    some { s with
      fallbackkeyidFallbackkey := s.fallbackkeyidFallbackkey.insert (toLex (device, algorithm))
        (used, keyId, value) }
  else none

/-- The fallback key as it is answered; `flag` sets its `fallback` field. -/
def fallbackAnswer (flag : String → String) (keyId : KeyId) (value : String) : Option (KeyId × String) :=
  some (keyId, flag value)

inductive Action where
  | device (device : Device) (present : Bool)
  | upload (device : Device) (keyId : KeyId) (value : String)
  | uploadFallback (device : Device) (algorithm : String) (keyId : KeyId) (value : String)
  | advance (j : Nat)
  | give (j : Nat)
  | claim (device : Device) (algorithm : String)
  | proceed (k : Nat)
  /-- A claim ends, or its client goes away: the lock is given up or the guard goes. -/
  | leave (k : Nat)
  /-- The guard of a claim that has left goes on. -/
  | unlist (k : Nat)
  | release (k : Nat)

section
variable (parses decodes : String → Bool) (flag : String → String)

def advance (j : Nat) (u : Upload) (s : World) : Option World :=
  match u.stage with
  | .called =>
    if u.device ∈ s.userdeviceidMetadata then some (s.setUpload j u .check) else some (s.setUpload j u .finished)
  | .check =>
    some (s.setUpload j u (if alreadyExists s.onetimekeyidOnetimekeys u.device u.keyId then .finished else .draw))
  | .draw => (nextCountBatch s.counter 1).map fun count => { s.setUpload j u (.put count) with counter := count }
  | .put count =>
    some { s.setUpload j u (.announce count) with
      onetimekeyidOnetimekeys := s.onetimekeyidOnetimekeys.insert (toLex (u.device, toLex (count, u.keyId))) u.value
      uploaded := s.uploaded ++ [toLex (u.device, toLex (count, u.keyId))] }
  | .announce count =>
    some { s.setUpload j u .finished with
      useridLastonetimekeyupdate := s.useridLastonetimekeyupdate.insert (ofLex u.device).1 count }
  | .finished => none

def proceed (k : Nat) (c : Claim) (s : World) : Option World :=
  match c.stage with
  | .called => (nextCountBatch s.counter 1).map fun count => { s.setClaim k c (.count count) with counter := count }
  | .count count =>
    some { s.setClaim k c .lock with
      useridLastonetimekeyupdate := s.useridLastonetimekeyupdate.insert (ofLex c.device).1 count }
  | .lock =>
    (MutexMap.step (.lock (lockKey c.device)) s.locks).map fun locks =>
      { s.setClaim k c (.wait s.locks.locks.length) with locks := locks }
  | .wait i =>
    (MutexMap.step (.acquire i) s.locks).map fun locks => { s.setClaim k c (.scan i) with locks := locks }
  | .scan i =>
    match firstKey parses decodes s.onetimekeyidOnetimekeys c.device c.algorithm with
    | some (key, value) => some (s.setClaim k c (.remove i key value))
    | none => some (s.setClaim k c (.fallback i))
  | .remove i key value =>
    some { s.setClaim k c (.returning i (some ((ofLex (ofLex key).2).2, value))) with
      onetimekeyidOnetimekeys := s.onetimekeyidOnetimekeys.remove key
      taken := s.taken ++ [key] }
  | .fallback i =>
    match s.fallbackkeyidFallbackkey.get (toLex (c.device, c.algorithm)) with
    | some (false, keyId, value) => some (s.setClaim k c (.mark i keyId value))
    | some (true, keyId, value) => some (s.setClaim k c (.returning i (fallbackAnswer flag keyId value)))
    | none => some (s.setClaim k c (.returning i none))
  | .mark i keyId value =>
    match addFallbackKey s c.device c.algorithm keyId value true with
    | some s' => some (s'.setClaim k c (.returning i (fallbackAnswer flag keyId value)))
    | none => some (s.setClaim k c (.returning i none))
  | _ => none

def step : Action → World → Option World
  | .device device present, s =>
    some { s with userdeviceidMetadata :=
      if present then device :: s.userdeviceidMetadata else s.userdeviceidMetadata.filter (· ≠ device) }
  | .upload device keyId value, s => some { s with uploads := s.uploads ++ [⟨device, keyId, value, .called⟩] }
  | .uploadFallback device algorithm keyId value, s => addFallbackKey s device algorithm keyId value false
  | .advance j, s => (s.uploads[j]?).bind fun u => advance j u s
  | .give j, s => (s.uploads[j]?).map fun u => s.setUpload j u .finished
  | .claim device algorithm, s => some { s with claims := s.claims ++ [⟨device, algorithm, .called⟩] }
  | .proceed k, s => (s.claims[k]?).bind fun c => proceed parses decodes flag k c s
  | .leave k, s =>
    (s.claims[k]?).bind fun c =>
      match c.stage with
      | .called => some (s.setClaim k c .finished)
      | .count _ => some (s.setClaim k c .finished)
      | .lock => some (s.setClaim k c .finished)
      | .wait i =>
        (MutexMap.step (.cancel i) s.locks).map fun locks => { s.setClaim k c .finished with locks := locks }
      | .scan i | .remove i _ _ | .fallback i | .mark i _ _ | .returning i _ =>
        (MutexMap.step (.drop i) s.locks).map fun locks => { s.setClaim k c (.leaving i) with locks := locks }
      | _ => none
  | .unlist k, s =>
    (s.claims[k]?).bind fun c =>
      match c.stage with
      | .leaving i =>
        (MutexMap.step (.remove i) s.locks).map fun locks => { s.setClaim k c (.leaving i) with locks := locks }
      | _ => none
  | .release k, s =>
    (s.claims[k]?).bind fun c =>
      match c.stage with
      | .leaving i =>
        (MutexMap.step (.release i) s.locks).map fun locks => { s.setClaim k c .finished with locks := locks }
      | _ => none

end

end Congruent.OneTimeKeys
