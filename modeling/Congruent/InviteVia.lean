import Congruent.StateCache

/-!
# What a membership change does to other users

The tables keyed by user and room change for one user only. The servers to reach an
invite's room through are kept by room: an operation of one user clears or rewrites
them for all.
-/

namespace Congruent

/-- What the tables hold for a user and a room. -/
structure UserRows where
  joined : Bool × Bool
  inviteState : Option (List StrippedEvent)
  inviteCount : Option Nat
  inviteSender : Option UserId
  leftState : Option (Option LeavePdu)
  leftCount : Option Nat
  knockedState : Option (List StrippedEvent)
  knockedCount : Option Nat
  forgotten : Bool

inductive MembershipOp where
  | call (c : MembershipCall)
  | forget (u : UserId) (r : RoomId)
  | unforget (u : UserId) (r : RoomId)

namespace MembershipOp

def userRoom : MembershipOp → UserId × RoomId
  | call (.joined u r) | call (.joinedSilent u r) | call (.invited u r _ _ _ _) | call (.invitedSilent u r _ _ _)
  | call (.left u r _ _) | call (.leftSilent u r) | call (.leftReconciled u r) | call (.knocked u r _)
  | forget u r | unforget u r => (u, r)

def user (op : MembershipOp) : UserId := op.userRoom.1

def room (op : MembershipOp) : RoomId := op.userRoom.2

def prog : MembershipOp → StateCache.Op Unit
  | call c => c.prog
  | forget u r => .modify (StateCache.forget u r)
  | unforget u r => .modify (StateCache.unforget u r)

end MembershipOp

namespace StateCache

def rowsOf (s : StateCache) (u : UserId) (r : RoomId) : UserRows where
  joined := (s.userroomidJoined u r, s.roomuseridJoined r u)
  inviteState := s.userroomidInvitestate u r
  inviteCount := s.roomuseridInvitecount r u
  inviteSender := s.userroomidInvitesender u r
  leftState := s.userroomidLeftstate u r
  leftCount := s.roomuseridLeftcount r u
  knockedState := s.userroomidKnockedstate u r
  knockedCount := s.roomuseridKnockedcount r u
  forgotten := s.roomuseridForgotten r u

def via (s : StateCache) (r : RoomId) : Option (List ServerName) := s.roomidInviteviaservers.lookup r

/-- `invite_state(..).is_ok()`. -/
def InvitePending (s : StateCache) (u : UserId) (r : RoomId) : Prop := (s.userroomidInvitestate u r).isSome = true

/-! ## Servers, sorted -/

theorem sortedServers_sorted (servers : List ServerName) : (sortedServers servers).Pairwise (· < ·) := by
  have hsorted : (servers.insertionSort (· ≤ ·)).Pairwise (· ≤ ·) := List.pairwise_insertionSort _ servers
  have hdedup := hsorted.sublist (List.dedup_sublist _)
  exact (hdedup.and (List.nodup_dedup _)).imp fun h => lt_of_le_of_ne h.1 h.2

theorem mem_sortedServers {servers : List ServerName} {server : ServerName} :
    server ∈ sortedServers servers ↔ server ∈ servers := by
  unfold sortedServers
  rw [List.mem_dedup, List.mem_insertionSort]

theorem sortedServers_eq_iff {servers row : List ServerName} :
    sortedServers servers = row ↔ row.Pairwise (· < ·) ∧ ∀ server, server ∈ row ↔ server ∈ servers := by
  constructor
  · rintro rfl
    exact ⟨sortedServers_sorted servers, fun _ => mem_sortedServers⟩
  · rintro ⟨hrow, hmem⟩
    have hsorted := sortedServers_sorted servers
    have hperm : (sortedServers servers).Perm row := by
      rw [List.perm_ext_iff_of_nodup (hsorted.imp ne_of_lt) (hrow.imp ne_of_lt)]
      exact fun server => mem_sortedServers.trans (hmem server).symm
    exact hperm.eq_of_pairwise (fun a b _ _ hab hba => absurd hba hab.asymm) hsorted hrow

/-! ## The rows of another user -/

section
variable {u u' : UserId} {r : RoomId} {s : StateCache} (h : u' ≠ u)
include h

theorem rowsOf_setOther (keep : MembershipKind) (preserve : Bool) :
    (s.setOtherMembershipStates u r keep preserve).rowsOf u' r = s.rowsOf u' r := by
  cases keep <;> cases preserve <;> simp [setOtherMembershipStates, rowsOf, setEntry_apply, h]

theorem rowsOf_forget : (s.forget u r).rowsOf u' r = s.rowsOf u' r := by
  simp [forget, rowsOf, setEntry_apply, h]

theorem rowsOf_unforget : (s.unforget u r).rowsOf u' r = s.rowsOf u' r := by
  simp [unforget, rowsOf, setEntry_apply, h]

theorem rowsOf_commitJoined : (s.commitJoined u r).rowsOf u' r = s.rowsOf u' r := by
  have hset := rowsOf_setOther (r := r) (s := { s with
    userroomidJoined := setEntry s.userroomidJoined u r true
    roomuseridJoined := setEntry s.roomuseridJoined r u true }) h .joined false
  refine (rowsOf_unforget h).trans (hset.trans ?_)
  simp [rowsOf, setEntry_apply, h]

theorem rowsOf_commitInvited (sender : Option UserId) (state : List StrippedEvent) (count : Nat) :
    (s.commitInvited u r sender state count).rowsOf u' r = s.rowsOf u' r := by
  refine (rowsOf_unforget h).trans ((rowsOf_setOther h .invited false).trans ?_)
  cases sender <;> simp [rowsOf, setEntry_apply, h]

theorem rowsOf_commitLeft (leave : Option LeavePdu) (count : Nat) (preserve : Bool) :
    (s.commitLeft u r leave count preserve).rowsOf u' r = s.rowsOf u' r := by
  refine (rowsOf_setOther h .left preserve).trans ?_
  simp [rowsOf, setEntry_apply, h]

theorem rowsOf_commitKnocked (state : List StrippedEvent) (count : Nat) :
    (s.commitKnocked u r state count).rowsOf u' r = s.rowsOf u' r := by
  refine (rowsOf_setOther h .knocked false).trans ?_
  simp [rowsOf, setEntry_apply, h]

end

/-! ## The row of the room -/

section
variable {u : UserId} {r : RoomId} {s : StateCache}

theorem via_setOther (keep : MembershipKind) (preserve : Bool) :
    (s.setOtherMembershipStates u r keep preserve).via r =
      if keep ≠ .invited ∧ preserve = false then none else s.via r := by
  cases keep <;> cases preserve <;> simp [setOtherMembershipStates, via]

end

end StateCache

/-- What an operation does to the row of its room. -/
inductive ViaEffect where
  | keeps
  | clears
  | adds (servers : List ServerName)

namespace MembershipOp

open StateCache

def viaEffect (s : StateCache) : MembershipOp → ViaEffect
  | call (.joined _ _) | call (.joinedSilent _ _) | call (.knocked _ _ _) => .clears
  | call (.left u r leave _) =>
    if preserveNewerInvite u leave (s.userroomidLeftstate u r)
      (s.userroomidInvitestate u r) then .keeps else .clears
  | call (.leftSilent u r) | call (.leftReconciled u r) =>
    if (s.userroomidInvitestate u r).isSome then .keeps else .clears
  | call (.invited _ _ true _ _ _) => .keeps
  | call (.invited _ _ false _ _ inviteVia) | call (.invitedSilent _ _ _ _ inviteVia) =>
    match inviteVia with
    | none | some [] => .keeps
    | some servers => .adds servers
  | forget _ _ | unforget _ _ => .keeps

def viaAfter (s : StateCache) (r : RoomId) : ViaEffect → Option (List ServerName)
  | .keeps => s.via r
  | .clears => none
  | .adds servers => some (sortedServers (s.serversInviteVia r ++ servers))

section
variable {s : StateCache} {u' : UserId}

theorem left_spec {u : UserId} {r : RoomId} (h : u' ≠ u) (leave : Option LeavePdu) (count : Nat) (preserve : Bool) :
    (s.commitLeft u r leave count preserve).rowsOf u' r = s.rowsOf u' r ∧
      (s.commitLeft u r leave count preserve).via r = viaAfter s r (if preserve then .keeps else .clears) := by
  refine ⟨rowsOf_commitLeft h leave count preserve, ?_⟩
  cases preserve <;> exact via_setOther .left _

theorem addInviteVia_spec (r : RoomId) (inviteVia : Option (List ServerName)) (u : UserId) :
    ((addInviteVia r inviteVia).run s).2.rowsOf u r = s.rowsOf u r ∧
      ((addInviteVia r inviteVia).run s).2.via r =
        viaAfter s r (match inviteVia with
          | none | some [] => .keeps
          | some servers => .adds servers) := by
  cases inviteVia with
  | none => exact ⟨rfl, rfl⟩
  | some servers =>
    cases servers with
    | nil => exact ⟨rfl, rfl⟩
    | cons server servers => exact ⟨rfl, AList.lookup_insert _⟩

theorem invited_spec {u : UserId} {r : RoomId} (h : u' ≠ u) (sender : Option UserId) (state : List StrippedEvent)
    (count : Nat) (inviteVia : Option (List ServerName)) :
    let s' := ((addInviteVia r inviteVia).run ((s.commitInvited u r sender state count).unforget u r)).2
    s'.rowsOf u' r = s.rowsOf u' r ∧
      s'.via r = viaAfter s r (match inviteVia with
        | none | some [] => .keeps
        | some servers => .adds servers) := by
  obtain ⟨hrows, hvia⟩ := @addInviteVia_spec ((s.commitInvited u r sender state count).unforget u r) r inviteVia u'
  refine ⟨hrows.trans ((rowsOf_unforget h).trans (rowsOf_commitInvited h sender state count)), hvia.trans ?_⟩
  rfl

/-- An operation leaves the rows of another user alone, and has its effect on the row of
the room. -/
theorem run_spec (op : MembershipOp) (h : u' ≠ op.user) :
    (op.prog.run s).2.rowsOf u' op.room = s.rowsOf u' op.room ∧
      (op.prog.run s).2.via op.room = viaAfter s op.room (op.viaEffect s) := by
  cases op with
  | forget u r => exact ⟨rowsOf_forget h, rfl⟩
  | unforget u r => exact ⟨rowsOf_unforget h, rfl⟩
  | call c =>
    cases c with
    | joined u r | joinedSilent u r =>
      exact ⟨(rowsOf_unforget h).trans (rowsOf_commitJoined h), via_setOther .joined false⟩
    | knocked u r state =>
      exact ⟨(rowsOf_unforget h).trans (rowsOf_commitKnocked h _ _), via_setOther .knocked false⟩
    | leftSilent u r | leftReconciled u r => exact left_spec h none _ _
    | left u r leave forgets =>
      have hleft := left_spec (s := { s with count := s.count + 1 }) (r := r) h leave (s.count + 1)
        (preserveNewerInvite u leave (s.userroomidLeftstate u r) (s.userroomidInvitestate u r))
      cases forgets with
      | false => exact hleft
      | true => exact ⟨(rowsOf_forget h).trans hleft.1, hleft.2⟩
    | invitedSilent u r lastState sender inviteVia => exact invited_spec h sender _ _ inviteVia
    | invited u r blocked sender lastState inviteVia =>
      cases blocked with
      | true => exact ⟨rfl, rfl⟩
      | false =>
        rcases inviteVia with _ | _ | ⟨server, servers⟩
        · exact invited_spec h (some sender) _ _ none
        · exact invited_spec h (some sender) _ _ (some [])
        · exact invited_spec h (some sender) _ _ (some (server :: servers))

end

/-- Whether an operation changes the row of its room: it clears one, or adds servers that
the row does not list already, in order, with just the known ones. -/
def Disturbs (op : MembershipOp) (s : StateCache) : Prop :=
  match op.viaEffect s with
  | .keeps => False
  | .clears => (s.via op.room).isSome = true
  | .adds servers =>
    ¬ ∃ row, s.via op.room = some row ∧ row.Pairwise (· < ·) ∧
      ∀ server, server ∈ row ↔ server ∈ s.serversInviteVia op.room ∨ server ∈ servers

theorem viaAfter_eq_iff (op : MembershipOp) (s : StateCache) :
    viaAfter s op.room (op.viaEffect s) = s.via op.room ↔ ¬ op.Disturbs s := by
  unfold Disturbs
  cases op.viaEffect s with
  | keeps => exact ⟨fun _ => not_false, fun _ => rfl⟩
  | clears =>
    show none = s.via op.room ↔ _
    rw [eq_comm, Bool.not_eq_true, Option.isSome_eq_false_iff, Option.isNone_iff_eq_none]
  | adds servers =>
    show some (sortedServers (s.serversInviteVia op.room ++ servers)) = s.via op.room ↔ _
    rw [not_not]
    constructor
    · intro h
      obtain ⟨hsorted, hmem⟩ :=
        sortedServers_eq_iff.mp (Eq.refl (sortedServers (s.serversInviteVia op.room ++ servers)))
      exact ⟨_, h.symm, hsorted, fun server => (hmem server).trans List.mem_append⟩
    · rintro ⟨row, hrow, hsorted, hmem⟩
      rw [hrow, sortedServers_eq_iff.mpr ⟨hsorted, fun server => (hmem server).trans List.mem_append.symm⟩]

/-- Everything stored about another user stays, and the servers to reach the room through
too while that user has a pending invite, exactly where the operation does not change the
row of the room. -/
theorem others_untouched_iff (op : MembershipOp) (s : StateCache) (u : UserId) (h : u ≠ op.user) :
    ((op.prog.run s).2.rowsOf u op.room = s.rowsOf u op.room ∧
        (s.InvitePending u op.room → (op.prog.run s).2.via op.room = s.via op.room)) ↔
      (s.InvitePending u op.room → ¬ op.Disturbs s) := by
  obtain ⟨hrows, hvia⟩ := run_spec (s := s) op h
  rw [hvia, viaAfter_eq_iff]
  exact and_iff_right hrows

/-! ## Two invites to one room -/

/-- Two users invited to a room that is reached through one server. -/
def twoInvites : StateCache :=
  ((do
    (call (.invited "@a:x" "!r:z" false "@s:z" none (some ["z"]))).prog
    (call (.invited "@b:x" "!r:z" false "@s:z" none (some ["z"]))).prog : StateCache.Op Unit).run {}).2

/-- A leave that keeps the first user's invite keeps the second's way in. -/
theorem leave_keeps_other_invite :
    ((call (.leftSilent "@a:x" "!r:z")).prog.run twoInvites).2.rowsOf "@b:x" "!r:z" =
      twoInvites.rowsOf "@b:x" "!r:z" ∧
      ((call (.leftSilent "@a:x" "!r:z")).prog.run twoInvites).2.via "!r:z" = twoInvites.via "!r:z" := by
  have hkeeps : ¬ (call (.leftSilent "@a:x" "!r:z")).Disturbs twoInvites := fun h => h
  obtain ⟨hrows, hvia⟩ :=
    (others_untouched_iff (call (.leftSilent "@a:x" "!r:z")) twoInvites "@b:x" (by decide)).mpr
    fun _ => hkeeps
  exact ⟨hrows, hvia rfl⟩

/-- The first user's join takes the server from the second's invite. -/
theorem join_clears_other_invite :
    twoInvites.InvitePending "@b:x" "!r:z" ∧ twoInvites.via "!r:z" = some ["z"] ∧
      ((call (.joined "@a:x" "!r:z")).prog.run twoInvites).2.InvitePending "@b:x" "!r:z" ∧
      ((call (.joined "@a:x" "!r:z")).prog.run twoInvites).2.via "!r:z" = none := by
  refine ⟨rfl, ?_, rfl, ?_⟩
  · decide
  · decide

end MembershipOp

end Congruent
