import Mathlib.Data.Prod.Lex
import Mathlib.Data.String.Basic
import Congruent.MutexMap
import Congruent.SortedMap

/-!
# Access and refresh tokens of devices (`service/users`)

A step is what a call does between two writes to the tables. Calls that hold the lock of a
device write its rows; nobody else does. The locks are those of a `MutexMap`.
-/

namespace Congruent.DeviceTokens

/-- A user and one of the user's devices. -/
abbrev Device := String ×ₗ String

/-! ## Lifetimes (`token_expiry.rs`) -/

def u64Max : Nat := 18446744073709551615

def expiresAt (now ttl : Nat) : Nat := min (now + ttl) u64Max

def supersededOnRefresh (expiresAt : Option Nat) : Bool := expiresAt.isSome

def supersededTokens (tokens : List (String × Option Nat)) : List String :=
  ((tokens.filter fun t => supersededOnRefresh t.2).map (·.1)).dropLast

def withoutToken (tokens : List String) (token : String) : List String := tokens.filter fun t => t ≠ token

/-! ## Tables -/

structure Tables where
  userdeviceidMetadata : List Device
  userdeviceidToken : SortedMap Device (List String)
  tokenUserdeviceid : SortedMap String Device
  tokenExpiresat : SortedMap String Nat
  refreshtokenUserdeviceid : SortedMap String Device
  userdeviceidRefreshtoken : SortedMap Device String
  userdeviceidPrevrefreshtoken : SortedMap Device String

inductive Err where
  | database (message : String)
  | invalidParam (message : String)
  | unknownToken (softLogout : Bool) (message : String)
  | userLocked (message : String)
  | other (message : String)
  deriving DecidableEq

namespace Tables

def activeTokens (t : Tables) (d : Device) : List String := (t.userdeviceidToken.get d).getD []

def tokenExpiresAt (t : Tables) (token : String) : Option Nat := t.tokenExpiresat.get token

/-- `store_access_token`; `conflicts` tells whether an appservice has the token. -/
def storeAccessToken (t : Tables) (d : Device) (token : String) (ttl : Option Nat) (now : Nat) (conflicts : Bool) :
    Except Err Tables :=
  if !t.userdeviceidMetadata.contains d then .error (.database "User does not exist or device has no metadata.")
  else if conflicts then .error (.invalidParam "Token conflicts with an existing appservice token")
  else if token ∈ t.activeTokens d then .ok t
  else .ok { t with
    userdeviceidToken := t.userdeviceidToken.insert d (t.activeTokens d ++ [token])
    tokenUserdeviceid := t.tokenUserdeviceid.insert token d
    tokenExpiresat := match ttl with
      | some ttl => t.tokenExpiresat.insert token (expiresAt now ttl)
      | none => t.tokenExpiresat }

def removeAccessToken (t : Tables) (d : Device) (token : String) : Tables :=
  { t with
    tokenUserdeviceid := t.tokenUserdeviceid.remove token
    tokenExpiresat := t.tokenExpiresat.remove token
    userdeviceidToken := t.userdeviceidToken.insert d (withoutToken (t.activeTokens d) token) }

def setRow {V : Type} (m : SortedMap Device V) (d : Device) : Option V → SortedMap Device V
  | some v => m.insert d v
  | none => m.remove d

def commitRefreshTokens (t : Tables) (d : Device) (current previous : Option String) (revoked : List String) :
    Tables :=
  let index := revoked.foldl SortedMap.remove t.refreshtokenUserdeviceid
  { t with
    refreshtokenUserdeviceid := match current with
      | some token => index.insert token d
      | none => index
    userdeviceidRefreshtoken := setRow t.userdeviceidRefreshtoken d current
    userdeviceidPrevrefreshtoken := setRow t.userdeviceidPrevrefreshtoken d previous }

def refreshTokens (t : Tables) (d : Device) : List String :=
  (t.userdeviceidRefreshtoken.get d).toList ++ (t.userdeviceidPrevrefreshtoken.get d).toList

def issueRefreshTokenLocked (t : Tables) (d : Device) (token : String) : Tables :=
  t.commitRefreshTokens d (some token) none (t.refreshTokens d)

def removeRefreshToken (t : Tables) (d : Device) : Tables := t.commitRefreshTokens d none none (t.refreshTokens d)

/-- `rotate_refresh_token`; a retry with the previous token revokes the current one. -/
def rotateRefreshToken (t : Tables) (d : Device) (used token : String) : Tables :=
  if t.userdeviceidRefreshtoken.get d = some used then
    t.commitRefreshTokens d (some token) (some used) (t.userdeviceidPrevrefreshtoken.get d).toList
  else t.commitRefreshTokens d (some token) (t.userdeviceidPrevrefreshtoken.get d)
    (t.userdeviceidRefreshtoken.get d).toList

end Tables

/-! ## Calls -/

inductive Request where
  | create (d : Device) (token : String) (ttl : Option Nat)
  | login (d : Device) (token : String) (ttl : Option Nat) (mayReuseDevice : Bool)
  | set (d : Device) (token : String) (ttl : Option Nat)
  | issue (d : Device)
  | refresh (token : String)
  | remove (d : Device)
  deriving DecidableEq

/-- The access token and the refresh token that a call answers. -/
abbrev Answer := Option String × Option String

inductive Stage where
  | called
  | locking (d : Device)
  | waiting (d : Device)
  | entered (d : Device)
  /-- The tokens superseded by a refresh go one by one. -/
  | superseding (d : Device) (rest : List String)
  | storing (d : Device)
  | issuing (d : Device) (access : Option String)
  | rotating (d : Device) (used access : String)
  /-- The rows of a removed device's tokens go, and the expiry of each after it. -/
  | unlisting (d : Device) (any : Bool) (rest : List String)
  | unexpiring (d : Device) (token : String) (rest : List String)
  | revoking (d : Device)
  | closing (d : Device)
  | returning (d : Device) (answer : Except Err Answer)
  /-- The guard goes, with the answer or because the call was dropped. -/
  | leaving (d : Device) (answer : Option (Except Err Answer))
  | answered (answer : Except Err Answer)
  | gone

/-- The device whose lock is held. -/
def Stage.holds : Stage → Option Device
  | .entered d | .superseding d _ | .storing d | .issuing d _ | .rotating d _ _ | .unlisting d _ _
  | .unexpiring d _ _ | .revoking d | .closing d | .returning d _ => some d
  | _ => none

def Stage.device : Stage → Option Device
  | .waiting d | .leaving d _ => some d
  | stage => stage.holds

structure Call where
  request : Request
  stage : Stage
  lock : Option Nat

def deviceLockKey (d : Device) : String := (ofLex d).1 ++ "\x00" ++ (ofLex d).2

structure World where
  tables : Tables
  locks : MutexMap String
  calls : List Call
  /-- The device that each token was given out for. -/
  issued : SortedMap String Device
  /-- The refresh tokens used, each with the one given for it. -/
  exchanges : List (String × String)

/-- What the rest of the server answers, and the token that is drawn. -/
structure Env where
  token : String
  now : Nat
  accessTokenTtl : Nat
  exists_ : Bool
  conflicts : Bool
  isLocked : Except String Bool

namespace World

def new : World := ⟨⟨[], .empty, .empty, .empty, .empty, .empty, .empty⟩, .new, [], .empty, []⟩

def setStage (s : World) (k : Nat) (c : Call) (stage : Stage) : World :=
  { s with calls := s.calls.set k { c with stage := stage } }

/-- The empty token, with which dehydrated devices are created, is not recorded. -/
def issue (s : World) (d : Device) (token : String) : SortedMap String Device :=
  if token = "" then s.issued else s.issued.insert token d

def leave (s : World) (k : Nat) (c : Call) (d : Device) (answer : Except Err Answer) : World :=
  s.setStage k c (.returning d answer)

end World

def unrecognized : Err := .unknownToken false "Refresh token is unrecognized."

/-- `create_device_with_ttl_locked` up to the token. -/
def createDevice (env : Env) (s : World) (k : Nat) (c : Call) (d : Device) : World :=
  if env.exists_ then
    { s.setStage k c (.storing d) with
      tables := { s.tables with userdeviceidMetadata := s.tables.userdeviceidMetadata ++ [d] } }
  else s.leave k c d (.error (.invalidParam ("Called create_device for non-existent user " ++ (ofLex d).1)))

/-- What a call does first under the lock. -/
def enter (env : Env) (s : World) (k : Nat) (c : Call) (d : Device) : World :=
  match c.request with
  | .create .. => createDevice env s k c d
  | .login _ _ _ mayReuseDevice =>
    if mayReuseDevice && s.tables.userdeviceidMetadata.contains d then s.setStage k c (.storing d)
    else createDevice env s k c d
  | .set .. => s.setStage k c (.storing d)
  | .issue _ => s.setStage k c (.issuing d none)
  | .refresh token =>
    match s.tables.refreshtokenUserdeviceid.get token with
    | none => s.leave k c d (.error unrecognized)
    | some _ =>
      match env.isLocked with
      | .error e => s.leave k c d (.error (.other e))
      | .ok true => s.leave k c d (.error (.userLocked "This account has been locked."))
      | .ok false =>
        let tokens := (s.tables.activeTokens d).map fun token => (token, s.tables.tokenExpiresAt token)
        s.setStage k c (.superseding d (supersededTokens tokens))
  | .remove _ =>
    let tokens := s.tables.activeTokens d
    s.setStage k c (.unlisting d (!tokens.isEmpty) tokens)

def stored (s : World) (k : Nat) (c : Call) (d : Device) (access : String) : World :=
  match c.request with
  | .login _ _ (some _) _ => s.setStage k c (.issuing d (some access))
  | .refresh used => s.setStage k c (.rotating d used access)
  | _ => s.leave k c d (.ok (some access, none))

def Request.accessToken (env : Env) : Request → String
  | .create _ token _ | .login _ token _ _ | .set _ token _ => token
  | .issue _ | .refresh _ | .remove _ => env.token

def Request.ttl (env : Env) : Request → Option Nat
  | .create _ _ ttl | .login _ _ ttl _ | .set _ _ ttl => ttl
  | .refresh _ => some env.accessTokenTtl
  | .issue _ | .remove _ => none

def proceed (env : Env) (s : World) (k : Nat) (c : Call) : Option World :=
  match c.stage with
  | .called =>
    match c.request with
    | .refresh token =>
      match s.tables.refreshtokenUserdeviceid.get token with
      | none => some (s.setStage k c (.answered (.error unrecognized)))
      | some d => some (s.setStage k c (.locking d))
    | .create d .. | .login d .. | .set d .. | .issue d | .remove d => some (s.setStage k c (.locking d))
  | .locking d =>
    (MutexMap.step (.lock (deviceLockKey d)) s.locks).map fun locks =>
      { s.setStage k { c with lock := some s.locks.locks.length } (.waiting d) with locks := locks }
  | .waiting d =>
    c.lock.bind fun i =>
      (MutexMap.step (.acquire i) s.locks).map fun locks => { s.setStage k c (.entered d) with locks := locks }
  | .entered d => some (enter env s k c d)
  | .superseding d (old :: rest) =>
    some { s.setStage k c (.superseding d rest) with tables := s.tables.removeAccessToken d old }
  | .superseding d [] => some (s.setStage k c (.storing d))
  | .storing d =>
    let token := c.request.accessToken env
    match s.tables.storeAccessToken d token (c.request.ttl env) env.now env.conflicts with
    | .error e => some (s.leave k c d (.error e))
    | .ok tables => some (stored { s with tables := tables, issued := s.issue d token } k c d token)
  | .issuing d access =>
    some { s.leave k c d (.ok (access, some env.token)) with
      tables := s.tables.issueRefreshTokenLocked d env.token, issued := s.issue d env.token }
  | .rotating d used access =>
    some { s.leave k c d (.ok (some access, some env.token)) with
      tables := s.tables.rotateRefreshToken d used env.token, issued := s.issue d env.token
      exchanges := s.exchanges ++ [(used, env.token)] }
  | .unlisting d _ (token :: rest) =>
    some { s.setStage k c (.unexpiring d token rest) with
      tables := { s.tables with tokenUserdeviceid := s.tables.tokenUserdeviceid.remove token } }
  | .unexpiring d token rest =>
    some { s.setStage k c (.unlisting d true rest) with
      tables := { s.tables with tokenExpiresat := s.tables.tokenExpiresat.remove token } }
  | .unlisting d any [] =>
    let list := if any then s.tables.userdeviceidToken.remove d else s.tables.userdeviceidToken
    some { s.setStage k c (.revoking d) with tables := { s.tables with userdeviceidToken := list } }
  | .revoking d => some { s.setStage k c (.closing d) with tables := s.tables.removeRefreshToken d }
  | .closing d =>
    some { s.leave k c d (.ok (none, none)) with
      tables := { s.tables with userdeviceidMetadata := s.tables.userdeviceidMetadata.filter fun x => x ≠ d } }
  | .returning .. | .leaving .. | .answered _ | .gone => none

/-- The answer of a call whose guard goes. -/
def Stage.answer : Stage → Option (Except Err Answer)
  | .returning _ answer => some answer
  | _ => none

/-- A call ends, or its client goes away: the lock is given up, or the guard looks who else
has the mutex. -/
def World.drop (s : World) (k : Nat) (c : Call) : Option World :=
  match c.stage, c.stage.holds, c.lock with
  | .called, _, _ => some (s.setStage k c .gone)
  | .locking _, _, _ => some (s.setStage k c .gone)
  | .waiting _, _, some i =>
    (MutexMap.step (.cancel i) s.locks).map fun locks => { s.setStage k c .gone with locks := locks }
  | stage, some d, some i =>
    (MutexMap.step (.drop i) s.locks).map fun locks =>
      { s.setStage k c (.leaving d stage.answer) with locks := locks }
  | _, _, _ => none

inductive Action where
  | call (request : Request)
  | proceed (k : Nat) (env : Env)
  | drop (k : Nat)
  /-- The guard of a call that leaves goes on. -/
  | unlist (k : Nat)
  | release (k : Nat)
  | restart

def step : Action → World → Option World
  | .call request, s => some { s with calls := s.calls ++ [⟨request, .called, none⟩] }
  | .proceed k env, s => (s.calls[k]?).bind fun c => proceed env s k c
  | .drop k, s => (s.calls[k]?).bind fun c => s.drop k c
  | .unlist k, s =>
    (s.calls[k]?).bind fun c =>
      match c.stage, c.lock with
      | .leaving d answer, some i =>
        (MutexMap.step (.remove i) s.locks).map fun locks =>
          { s.setStage k c (.leaving d answer) with locks := locks }
      | _, _ => none
  | .release k, s =>
    (s.calls[k]?).bind fun c =>
      match c.stage, c.lock with
      | .leaving _ answer, some i =>
        (MutexMap.step (.release i) s.locks).map fun locks =>
          { s.setStage k c (answer.elim .gone .answered) with locks := locks }
      | _, _ => none
  | .restart, s => some { s with locks := .new, calls := [] }

def World.isNew (s : World) (token : String) : Bool := token ≠ "" && (s.issued.get token).isNone

/-- No token is given out twice, but the empty one of dehydrated devices. -/
def fresh : Action → World → Bool
  | .proceed k env, s => (s.calls[k]?).all fun c =>
      match c.stage, c.request with
      | .storing _, .create _ token _ => token = "" || s.isNew token
      | .storing _, request => s.isNew (request.accessToken env)
      | .issuing .., _ | .rotating .., _ => s.isNew env.token
      | _, _ => true
  | _, _ => true

def apart : Action → World → Bool
  | .proceed k _, s => (s.calls[k]?).all fun c =>
      match c.stage with
      | .locking d => MutexMap.apart (.lock (deviceLockKey d)) s.locks
      | _ => true
  | _, _ => true

end Congruent.DeviceTokens
