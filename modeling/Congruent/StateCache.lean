import Mathlib.Data.List.Dedup
import Mathlib.Data.List.Sort
import Mathlib.Data.String.Basic
import Mathlib.Logic.Function.Basic
import Congruent.Event
import Congruent.Prog
import Congruent.Store

/-!
# Membership tables (`state_cache/update.rs`)

Each membership of a user in a room is kept twice, keyed by the user and keyed by
the room. Every operation commits one batch. The history of the batches of a user
and a room says which tables hold; the tables follow it under every interleaving.
-/

namespace Congruent

/-- Which tables currently hold a user's membership in a room. -/
inductive MembershipKind where
  | joined
  | left
  | knocked
  | invited
  deriving DecidableEq, Repr

/-- A stripped state event, by what its fields answer. -/
structure StrippedEvent where
  type : Option String
  stateKey : Option UserId
  membership : Option MembershipState
  originServerTs : Option Nat

/-- What `mark_as_left` reads of the leave event. -/
structure LeavePdu where
  eventId : EventId
  originServerTs : Nat

/-- The tables, the counter, and the batches committed for a user and a room,
newest first, with whether a leave preserved a pending invite. -/
structure StateCache where
  userroomidJoined : UserId → RoomId → Bool := fun _ _ => false
  roomuseridJoined : RoomId → UserId → Bool := fun _ _ => false
  userroomidInvitestate : UserId → RoomId → Option (List StrippedEvent) := fun _ _ => none
  roomuseridInvitecount : RoomId → UserId → Option Nat := fun _ _ => none
  userroomidInvitesender : UserId → RoomId → Option UserId := fun _ _ => none
  userroomidLeftstate : UserId → RoomId → Option (Option LeavePdu) := fun _ _ => none
  roomuseridLeftcount : RoomId → UserId → Option Nat := fun _ _ => none
  userroomidKnockedstate : UserId → RoomId → Option (List StrippedEvent) := fun _ _ => none
  roomuseridKnockedcount : RoomId → UserId → Option Nat := fun _ _ => none
  roomuseridForgotten : RoomId → UserId → Bool := fun _ _ => false
  roomidInviteviaservers : AList (fun _ : RoomId => List ServerName) := ∅
  count : Nat := 0
  history : UserId → RoomId → List (MembershipKind × Bool) := fun _ _ => []

/-- A table with one entry changed. -/
def setEntry {K L V : Type} [DecidableEq K] [DecidableEq L] (t : K → L → V) (k : K) (l : L) (v : V) : K → L → V :=
  fun k' l' => if k' = k ∧ l' = l then v else t k' l'

theorem setEntry_apply {K L V : Type} [DecidableEq K] [DecidableEq L] (t : K → L → V) (k k' : K)
    (l l' : L) (v : V) :
    setEntry t k l v k' l' = if k' = k ∧ l' = l then v else t k' l' := rfl

namespace StateCache

variable (u : UserId) (r : RoomId)

/-- The deletions of a batch: the tables that do not apply. -/
def setOtherMembershipStates (keep : MembershipKind) (preserveInvite : Bool) (s : StateCache) : StateCache :=
  let s := if keep ≠ .joined then
      { s with
        userroomidJoined := setEntry s.userroomidJoined u r false
        roomuseridJoined := setEntry s.roomuseridJoined r u false }
    else s
  let s := if keep ≠ .invited ∧ !preserveInvite then
      { s with
        userroomidInvitestate := setEntry s.userroomidInvitestate u r none
        roomuseridInvitecount := setEntry s.roomuseridInvitecount r u none
        userroomidInvitesender := setEntry s.userroomidInvitesender u r none
        roomidInviteviaservers := s.roomidInviteviaservers.erase r }
    else s
  let s := if keep ≠ .left then
      { s with
        userroomidLeftstate := setEntry s.userroomidLeftstate u r none
        roomuseridLeftcount := setEntry s.roomuseridLeftcount r u none }
    else s
  let s := if keep ≠ .knocked then
      { s with
        userroomidKnockedstate := setEntry s.userroomidKnockedstate u r none
        roomuseridKnockedcount := setEntry s.roomuseridKnockedcount r u none }
    else s
  { s with history := setEntry s.history u r ((keep, preserveInvite) :: s.history u r) }

/-! ## The batches -/

def commitJoined (s : StateCache) : StateCache :=
  let s := { s with
    userroomidJoined := setEntry s.userroomidJoined u r true
    roomuseridJoined := setEntry s.roomuseridJoined r u true }
  let s := s.setOtherMembershipStates u r .joined false
  { s with roomuseridForgotten := setEntry s.roomuseridForgotten r u false }

def commitInvited (sender : Option UserId) (state : List StrippedEvent) (count : Nat)
    (s : StateCache) : StateCache :=
  let s := { s with
    userroomidInvitestate := setEntry s.userroomidInvitestate u r (some state)
    roomuseridInvitecount := setEntry s.roomuseridInvitecount r u (some count)
    userroomidInvitesender := match sender with
      | some sender => setEntry s.userroomidInvitesender u r (some sender)
      | none => s.userroomidInvitesender }
  let s := s.setOtherMembershipStates u r .invited false
  { s with roomuseridForgotten := setEntry s.roomuseridForgotten r u false }

def commitLeft (leave : Option LeavePdu) (count : Nat) (preserveInvite : Bool) (s : StateCache) : StateCache :=
  let s := { s with
    userroomidLeftstate := setEntry s.userroomidLeftstate u r (some leave)
    roomuseridLeftcount := setEntry s.roomuseridLeftcount r u (some count) }
  s.setOtherMembershipStates u r .left preserveInvite

def commitKnocked (state : List StrippedEvent) (count : Nat) (s : StateCache) : StateCache :=
  let s := { s with
    userroomidKnockedstate := setEntry s.userroomidKnockedstate u r (some state)
    roomuseridKnockedcount := setEntry s.roomuseridKnockedcount r u (some count) }
  s.setOtherMembershipStates u r .knocked false

def forget (s : StateCache) : StateCache :=
  { s with roomuseridForgotten := setEntry s.roomuseridForgotten r u true }

def unforget (s : StateCache) : StateCache :=
  { s with roomuseridForgotten := setEntry s.roomuseridForgotten r u false }

/-! ## Servers to reach a room through -/

/-- The rows whose key begins with the room, and of each the last server. -/
def serversInviteVia (s : StateCache) : List ServerName :=
  (s.roomidInviteviaservers.entries.filter fun row => (Store.utf8 r).isPrefixOf (Store.utf8 row.1)).filterMap
    fun row => row.2.getLast?

/-- `sort_unstable` and `dedup`; equal servers are neighbours then. -/
def sortedServers (servers : List ServerName) : List ServerName := (servers.insertionSort (· ≤ ·)).dedup

def insertVia (servers : List ServerName) (s : StateCache) : StateCache :=
  { s with roomidInviteviaservers := s.roomidInviteviaservers.insert r servers }

end StateCache

/-! ## The operations -/

def newerInvite (u : UserId) (leaveTs : Nat) (state : List StrippedEvent) : Bool :=
  state.any fun e => e.type == some "m.room.member" && e.stateKey == some u && e.membership == some .invite &&
    e.originServerTs.any fun ts => leaveTs < ts

/-- `preserve_newer_invite`: the leave is the recorded one, or an invite is newer. -/
def preserveNewerInvite (u : UserId) (leave : Option LeavePdu) (leftState : Option (Option LeavePdu))
    (inviteState : Option (List StrippedEvent)) : Bool :=
  match leave with
  | none => false
  | some leave =>
    (leftState.join.any fun existing => existing.eventId == leave.eventId) ||
      inviteState.any (newerInvite u leave.originServerTs)

namespace StateCache

abbrev Op := Prog StateCache

def nextCount : Op Nat := .act fun s => (s.count + 1, { s with count := s.count + 1 })

variable (u : UserId) (r : RoomId)

def markAsJoined : Op Unit := do
  .modify (commitJoined u r)
  .modify (unforget u r)

/-- The same writes as `mark_as_joined`. -/
def markAsJoinedSilent : Op Unit := do
  .modify (commitJoined u r)
  .modify (unforget u r)

def addServersInviteVia (servers : List ServerName) : Op Unit := do
  let known ← .read (serversInviteVia r)
  .modify (insertVia r (sortedServers (known ++ servers)))

/-- `invite_via.filter(is_not_empty!())`. -/
def addInviteVia (inviteVia : Option (List ServerName)) : Op Unit :=
  match inviteVia with
  | none | some [] => pure ()
  | some servers => addServersInviteVia r servers

/-- Returns whether the invite was taken; a blocked one is an error. -/
def markAsInvited (blocked : Bool) (sender : UserId) (lastState : Option (List StrippedEvent))
    (inviteVia : Option (List ServerName)) : Op Bool :=
  if blocked then pure false
  else do
    let count ← nextCount
    .modify (commitInvited u r (some sender) (lastState.getD []) (count + 1))
    .modify (unforget u r)
    addInviteVia r inviteVia
    pure true

def markAsInvitedSilent (lastState : Option (List StrippedEvent)) (sender : Option UserId)
    (inviteVia : Option (List ServerName)) : Op Unit := do
  let count ← nextCount
  .modify (commitInvited u r sender (lastState.getD []) (count + 1))
  .modify (unforget u r)
  addInviteVia r inviteVia

/-- No leave event here, so a pending invite is always preserved. -/
def markAsLeftReconciled : Op Nat := do
  let count ← nextCount
  let hasPendingInvite ← .read fun s => (s.userroomidInvitestate u r).isSome
  .modify (commitLeft u r none count hasPendingInvite)
  pure count

def markAsLeftSilent : Op Unit := do
  let _ ← markAsLeftReconciled u r
  pure ()

/-- `forgets`: the room is to be forgotten upon leaving. -/
def markAsLeft (leave : Option LeavePdu) (forgets : Bool) : Op Unit := do
  let count ← nextCount
  let leftState ← .read fun s => s.userroomidLeftstate u r
  let inviteState ← .read fun s => s.userroomidInvitestate u r
  .modify (commitLeft u r leave count (preserveNewerInvite u leave leftState inviteState))
  if forgets then .modify (forget u r) else pure ()

def markAsKnocked (knockedState : Option (List StrippedEvent)) : Op Unit := do
  let count ← nextCount
  .modify (commitKnocked u r (knockedState.getD []) (count + 1))
  .modify (unforget u r)

end StateCache

/-- A call of one of the operations. -/
inductive MembershipCall where
  | joined (u : UserId) (r : RoomId)
  | joinedSilent (u : UserId) (r : RoomId)
  | invited (u : UserId) (r : RoomId) (blocked : Bool) (sender : UserId) (lastState : Option (List StrippedEvent))
      (inviteVia : Option (List ServerName))
  | invitedSilent (u : UserId) (r : RoomId) (lastState : Option (List StrippedEvent)) (sender : Option UserId)
      (inviteVia : Option (List ServerName))
  | left (u : UserId) (r : RoomId) (leave : Option LeavePdu) (forgets : Bool)
  | leftSilent (u : UserId) (r : RoomId)
  | leftReconciled (u : UserId) (r : RoomId)
  | knocked (u : UserId) (r : RoomId) (knockedState : Option (List StrippedEvent))

def MembershipCall.prog : MembershipCall → StateCache.Op Unit
  | joined u r => StateCache.markAsJoined u r
  | joinedSilent u r => StateCache.markAsJoinedSilent u r
  | invited u r blocked sender lastState inviteVia => do
    let _ ← StateCache.markAsInvited u r blocked sender lastState inviteVia
    pure ()
  | invitedSilent u r lastState sender inviteVia => StateCache.markAsInvitedSilent u r lastState sender inviteVia
  | left u r leave forgets => StateCache.markAsLeft u r leave forgets
  | leftSilent u r => StateCache.markAsLeftSilent u r
  | leftReconciled u r => do
    let _ ← StateCache.markAsLeftReconciled u r
    pure ()
  | knocked u r knockedState => StateCache.markAsKnocked u r knockedState

/-! ## What the history says -/

/-- The membership a history of batches leaves behind: the newest one, and an
invite as long as only leaves that preserve it came after. -/
def MembershipKind.Holds : MembershipKind → List (MembershipKind × Bool) → Prop
  | _, [] => False
  | .invited, (.left, true) :: h => MembershipKind.Holds .invited h
  | k, (k', _) :: _ => k = k'

def StateCache.UserKeyed (s : StateCache) (u : UserId) (r : RoomId) : MembershipKind → Prop
  | .joined => s.userroomidJoined u r = true
  | .left => (s.userroomidLeftstate u r).isSome
  | .knocked => (s.userroomidKnockedstate u r).isSome
  | .invited => (s.userroomidInvitestate u r).isSome

def StateCache.RoomKeyed (s : StateCache) (u : UserId) (r : RoomId) : MembershipKind → Prop
  | .joined => s.roomuseridJoined r u = true
  | .left => (s.roomuseridLeftcount r u).isSome
  | .knocked => (s.roomuseridKnockedcount r u).isSome
  | .invited => (s.roomuseridInvitecount r u).isSome

/-- Both tables of each membership hold what the history says. -/
def StateCache.Follows (s : StateCache) : Prop :=
  ∀ u r k, (s.UserKeyed u r k ↔ k.Holds (s.history u r)) ∧ (s.RoomKeyed u r k ↔ k.Holds (s.history u r))

namespace StateCache

variable {s : StateCache}

theorem follows_commitJoined (h : s.Follows) (u : UserId) (r : RoomId) : (s.commitJoined u r).Follows := by
  intro u' r' k
  have h := h u' r' k
  by_cases hur : u' = u ∧ r' = r
  · obtain ⟨rfl, rfl⟩ := hur
    cases k <;> simp [commitJoined, setOtherMembershipStates, UserKeyed, RoomKeyed, setEntry, MembershipKind.Holds]
  · have hru : ¬ (r' = r ∧ u' = u) := fun e => hur ⟨e.2, e.1⟩
    cases k <;>
      simpa [commitJoined, setOtherMembershipStates, UserKeyed, RoomKeyed, setEntry_apply, hur, hru] using h

theorem follows_commitInvited (h : s.Follows) (u : UserId) (r : RoomId) (sender : Option UserId)
    (state : List StrippedEvent) (count : Nat) : (s.commitInvited u r sender state count).Follows := by
  intro u' r' k
  have h := h u' r' k
  by_cases hur : u' = u ∧ r' = r
  · obtain ⟨rfl, rfl⟩ := hur
    cases k <;> simp [commitInvited, setOtherMembershipStates, UserKeyed, RoomKeyed, setEntry, MembershipKind.Holds]
  · have hru : ¬ (r' = r ∧ u' = u) := fun e => hur ⟨e.2, e.1⟩
    cases k <;>
      simpa [commitInvited, setOtherMembershipStates, UserKeyed, RoomKeyed, setEntry_apply, hur, hru] using h

theorem follows_commitLeft (h : s.Follows) (u : UserId) (r : RoomId) (leave : Option LeavePdu) (count : Nat)
    (preserve : Bool) : (s.commitLeft u r leave count preserve).Follows := by
  intro u' r' k
  have h := h u' r' k
  by_cases hur : u' = u ∧ r' = r
  · obtain ⟨rfl, rfl⟩ := hur
    cases k <;> cases preserve <;>
      simp_all [commitLeft, setOtherMembershipStates, UserKeyed, RoomKeyed, setEntry, MembershipKind.Holds]
  · have hru : ¬ (r' = r ∧ u' = u) := fun e => hur ⟨e.2, e.1⟩
    cases k <;> cases preserve <;>
      simpa [commitLeft, setOtherMembershipStates, UserKeyed, RoomKeyed, setEntry_apply, hur, hru] using h

theorem follows_commitKnocked (h : s.Follows) (u : UserId) (r : RoomId) (state : List StrippedEvent) (count : Nat) :
    (s.commitKnocked u r state count).Follows := by
  intro u' r' k
  have h := h u' r' k
  by_cases hur : u' = u ∧ r' = r
  · obtain ⟨rfl, rfl⟩ := hur
    cases k <;> simp [commitKnocked, setOtherMembershipStates, UserKeyed, RoomKeyed, setEntry, MembershipKind.Holds]
  · have hru : ¬ (r' = r ∧ u' = u) := fun e => hur ⟨e.2, e.1⟩
    cases k <;>
      simpa [commitKnocked, setOtherMembershipStates, UserKeyed, RoomKeyed, setEntry_apply, hur, hru] using h

/-! ## Interleavings -/

/-- A program that keeps the tables in step with the history. The room's
membership lock only takes interleavings away. -/
def Keeps {A : Type} (p : Op A) : Prop :=
  ∀ s, Prog.Safe Follows (fun _ _ => True) (fun _ _ => True) p s

variable {A B : Type}

theorem Keeps.pure (a : A) : Keeps (pure a : Op A) := fun _ _ _ _ => trivial

theorem Keeps.bind {p : Op A} {k : A → Op B} (hp : Keeps p) (hk : ∀ a, Keeps (k a)) : Keeps (p >>= k) :=
  fun s => Prog.Safe.bind (fun _ => trivial) (fun _ _ _ _ _ => trivial) (hp s) fun a s' _ _ _ => hk a s'

theorem Keeps.read (f : StateCache → A) : Keeps (.read f : Op A) :=
  fun _ _ _ h => ⟨h, trivial, fun _ _ _ => trivial⟩

theorem Keeps.modify {f : StateCache → StateCache} (hf : ∀ s, s.Follows → (f s).Follows) : Keeps (.modify f) :=
  fun _ s' _ h => ⟨hf s' h, trivial, fun _ _ _ => trivial⟩

theorem nextCount_keeps : Keeps nextCount := fun _ _ _ h => ⟨h, trivial, fun _ _ _ => trivial⟩

theorem unforget_keeps (u : UserId) (r : RoomId) : Keeps (.modify (unforget u r)) := .modify fun _ h => h

theorem markAsJoined_keeps (u : UserId) (r : RoomId) : Keeps (markAsJoined u r) :=
  .bind (.modify fun _ h => follows_commitJoined h u r) fun _ => unforget_keeps u r

theorem addInviteVia_keeps (r : RoomId) (inviteVia : Option (List ServerName)) : Keeps
    (addInviteVia r inviteVia) := by
  unfold addInviteVia
  split
  · exact .pure ()
  · exact .pure ()
  · exact .bind (.read _) fun _ => .modify fun _ h => h

theorem markAsInvitedSilent_keeps (u : UserId) (r : RoomId) (lastState : Option (List StrippedEvent))
    (sender : Option UserId) (inviteVia : Option (List ServerName)) :
    Keeps (markAsInvitedSilent u r lastState sender inviteVia) :=
  .bind nextCount_keeps fun _ => .bind (.modify fun _ h => follows_commitInvited h u r _ _ _) fun _ =>
    .bind (unforget_keeps u r) fun _ => addInviteVia_keeps r inviteVia

theorem markAsInvited_keeps (u : UserId) (r : RoomId) (blocked : Bool) (sender : UserId)
    (lastState : Option (List StrippedEvent)) (inviteVia : Option (List ServerName)) :
    Keeps (markAsInvited u r blocked sender lastState inviteVia) := by
  unfold markAsInvited
  split
  · exact .pure false
  · exact .bind nextCount_keeps fun _ => .bind (.modify fun _ h => follows_commitInvited h u r _ _ _) fun _ =>
      .bind (unforget_keeps u r) fun _ => .bind (addInviteVia_keeps r inviteVia) fun _ => .pure true

theorem markAsLeftReconciled_keeps (u : UserId) (r : RoomId) : Keeps (markAsLeftReconciled u r) :=
  .bind nextCount_keeps fun _ => .bind (.read _) fun _ => .bind (.modify fun _ h => follows_commitLeft h u r _ _ _)
    fun _ => .pure _

theorem markAsLeft_keeps (u : UserId) (r : RoomId) (leave : Option LeavePdu) (forgets : Bool) :
    Keeps (markAsLeft u r leave forgets) := by
  refine .bind nextCount_keeps fun _ => .bind (.read _) fun _ => .bind (.read _) fun _ =>
    .bind (.modify fun _ h => follows_commitLeft h u r _ _ _) fun _ => ?_
  split
  · exact .modify fun _ h => h
  · exact .pure ()

theorem markAsKnocked_keeps (u : UserId) (r : RoomId) (knockedState : Option (List StrippedEvent)) :
    Keeps (markAsKnocked u r knockedState) :=
  .bind nextCount_keeps fun _ => .bind (.modify fun _ h => follows_commitKnocked h u r _ _) fun _ =>
    unforget_keeps u r

theorem prog_keeps : ∀ c : MembershipCall, Keeps c.prog
  | .joined u r => markAsJoined_keeps u r
  | .joinedSilent u r => markAsJoined_keeps u r
  | .invited u r blocked sender lastState inviteVia =>
    .bind (markAsInvited_keeps u r blocked sender lastState inviteVia) fun _ => .pure ()
  | .invitedSilent u r lastState sender inviteVia => markAsInvitedSilent_keeps u r lastState sender inviteVia
  | .left u r leave forgets => markAsLeft_keeps u r leave forgets
  | .leftSilent u r => .bind (markAsLeftReconciled_keeps u r) fun _ => .pure ()
  | .leftReconciled u r => .bind (markAsLeftReconciled_keeps u r) fun _ => .pure ()
  | .knocked u r knockedState => markAsKnocked_keeps u r knockedState

theorem schedule_follows (calls : List MembershipCall) (is : List Nat) {s : StateCache} (hs : s.Follows) :
    (Prog.schedule is (calls.map MembershipCall.prog) s).2.Follows := by
  have hpool : Prog.PoolSafe Follows (fun _ _ => True) (fun (_ : MembershipCall) (_ : Unit) _ => True) calls
      (calls.map MembershipCall.prog) s :=
    List.forall₂_map_right_iff.mpr (List.forall₂_same.mpr fun c _ => prog_keeps c s)
  exact (Prog.schedule_safe (fun _ => trivial) (fun _ _ _ _ _ => trivial) is hs hpool).1

end StateCache

/-! ## Exclusive memberships -/

theorem MembershipKind.Holds.unique {k k' : MembershipKind} {h : List (MembershipKind × Bool)} (hk : k.Holds h)
    (hk' : k'.Holds h) (hl : k ≠ .left) (hl' : k' ≠ .left) : k = k' := by
  cases h with
  | nil => cases hk
  | cons e h =>
    obtain ⟨e, b⟩ := e
    cases k <;> cases k' <;> cases e <;> cases b <;> simp_all [MembershipKind.Holds]

def PreservedInvite (h : List (MembershipKind × Bool)) : Prop :=
  ∃ h', h = (.left, true) :: h' ∧ MembershipKind.invited.Holds h'

theorem MembershipKind.Holds.of_left {k : MembershipKind} {h : List (MembershipKind × Bool)}
    (hl : MembershipKind.left.Holds h) (hk : k.Holds h) (hne : k ≠ .left) : k = .invited ∧ PreservedInvite h := by
  cases h with
  | nil => cases hk
  | cons e h =>
    obtain ⟨e, b⟩ := e
    cases k <;> cases e <;> cases b <;> simp_all [MembershipKind.Holds, PreservedInvite]

/-- In every state of every interleaving the two tables of each membership agree,
at most one of joined, knocked and invited holds, and left holds with another only
when that is a preserved invite. -/
theorem membership_exclusive (calls : List MembershipCall) (is : List Nat) (u : UserId) (r : RoomId) :
    let s := (Prog.schedule is (calls.map MembershipCall.prog) ({} : StateCache)).2
    (∀ k, s.UserKeyed u r k ↔ s.RoomKeyed u r k) ∧
      (∀ k k', k ≠ .left → k' ≠ .left → s.UserKeyed u r k → s.UserKeyed u r k' → k = k') ∧
      ∀ k, k ≠ .left → s.UserKeyed u r .left → s.UserKeyed u r k →
        k = .invited ∧ PreservedInvite (s.history u r) := by
  intro s
  have hs : s.Follows := StateCache.schedule_follows calls is fun u r k => by
    cases k <;> simp [StateCache.UserKeyed, StateCache.RoomKeyed, MembershipKind.Holds]
  refine ⟨fun k => (hs u r k).1.trans (hs u r k).2.symm, ?_, ?_⟩
  · intro k k' hk hk' h h'
    exact ((hs u r k).1.mp h).unique ((hs u r k').1.mp h') hk hk'
  · intro k hk hl h
    exact MembershipKind.Holds.of_left ((hs u r .left).1.mp hl) ((hs u r k).1.mp h) hk

end Congruent
