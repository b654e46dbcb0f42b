import Congruent.InviteVia
import Congruent.JoinedTable

/-!
# Reconciling memberships with the state (`reconcile_membership`)

The repair compares the users who have a row with the users whom the state has joined
or invited. A leave keeps a pending invite, so a stale invite is found again by every
run, which marks the user as left anew.
-/

namespace Congruent

/-- The state of a room: each event under its own key. -/
structure RoomState where
  root : Option Root
  view : EventId → Option Pdu
  keyed : ∀ state ∈ root, ∀ k id pdu, state.lookup k = some id → view id = some pdu →
    pdu.kind = k.1 ∧ pdu.stateKey = some k.2

namespace RoomState

variable (plat : Platform) (st : RoomState)

/-- `state_full_pdus_hamt_strict`; nothing where one of the events is missing. -/
def pdus : Option (List Pdu) :=
  match st.root with
  | none => some []
  | some state => state.entries.mapM fun e => st.view e.2

def word (pdu : Pdu) : String := ((pdu.content.get "membership").bind Value.asStr).getD "leave"

def gives (membership : String) (u : UserId) : Bool :=
  (st.pdus.getD []).any fun pdu => memberUser plat pdu = some u ∧ word pdu = membership

/-- `state_get_in_room_hamt`. -/
def member (u : UserId) : Option Pdu := (st.root.bind fun state => state.lookup (.roomMember, u)).bind st.view

end RoomState

/-- The membership tables and those derived from them. -/
structure MembershipTables where
  cache : StateCache
  roomidJoinedcount : RoomId → Option Nat
  roomidInvitedcount : RoomId → Option Nat
  roomserverids : RoomId → ServerName → Bool
  serverroomids : ServerName → RoomId → Bool

/-- Runs an operation for each of some users. -/
def forUsers (f : UserId → StateCache.Op Unit) : List UserId → StateCache.Op Unit
  | [] => pure ()
  | u :: us => do
    f u
    forUsers f us

section
variable (plat : Platform) (summaryStripped : Pdu → List StrippedEvent) (st : RoomState) (room : RoomId)

def inviteFromState (u : UserId) : StateCache.Op Unit :=
  match st.member u with
  | some pdu => StateCache.markAsInvitedSilent u room (some (summaryStripped pdu)) (some pdu.sender) none
  | none => StateCache.markAsInvitedSilent u room none none none

/-- The marks of `reconcile_membership`. Each of the loops goes over its users in an order
of its own. -/
def reconcileMarks (orders : Nat → List UserId) : StateCache.Op Unit := do
  let cachedJoined ← .read fun s => s.roomuseridJoined room
  let cachedInvited ← .read fun s u => (s.roomuseridInvitecount room u).isSome
  forUsers (fun u => StateCache.markAsJoinedSilent u room)
    ((orders 0).filter fun u => st.gives plat "join" u && !cachedJoined u)
  forUsers (fun u => if cachedJoined u then pure () else inviteFromState summaryStripped st room u)
    ((orders 1).filter fun u => st.gives plat "invite" u && !cachedInvited u)
  forUsers (fun u => if st.gives plat "invite" u then pure () else StateCache.markAsLeftSilent u room)
    ((orders 2).filter fun u => cachedJoined u && !st.gives plat "join" u)
  forUsers (fun u => if st.gives plat "join" u then pure () else StateCache.markAsLeftSilent u room)
    ((orders 3).filter fun u => cachedInvited u && !st.gives plat "invite" u)

/-- `update_joined_count`, given the users in the order their rows are read in. -/
def updateJoinedCount (orders : Nat → List UserId) (t : MembershipTables) : MembershipTables :=
  let members := (orders 4).filter fun u => t.cache.roomuseridJoined room u
  let invited := (orders 5).filter fun u => (t.cache.roomuseridInvitecount room u).isSome
  let servers := members.map plat.codec.userServerName
  { t with
    roomidJoinedcount := fun r => if r = room then some members.length else t.roomidJoinedcount r
    roomidInvitedcount := fun r => if r = room then some invited.length else t.roomidInvitedcount r
    roomserverids := fun r v => if r = room then v ∈ servers else t.roomserverids r v
    -- Only the rows of servers that enter or leave the room are written.
    serverroomids := fun v r =>
      if r = room ∧ t.roomserverids room v ≠ decide (v ∈ servers) then v ∈ servers else t.serverroomids v r }

def reconcileMembership (orders : Nat → List UserId) (t : MembershipTables) : MembershipTables :=
  match st.pdus with
  | none => t
  | some _ =>
    updateJoinedCount plat room orders
      { t with cache := ((reconcileMarks plat summaryStripped st room orders).run t.cache).2 }

end

/-! ## Loops over users -/

/-- An operation on one user: the rows of others stay, and positions only grow. -/
structure OnUser (room : RoomId) (f : UserId → StateCache.Op Unit) : Prop where
  others : ∀ u v s, u ≠ v → ((f v).run s).2.rowsOf u room = s.rowsOf u room
  count : ∀ v s, s.count ≤ ((f v).run s).2.count

section
variable {room : RoomId} {f : UserId → StateCache.Op Unit}

theorem forUsers_run (u : UserId) (us : List UserId) (s : StateCache) :
    ((forUsers f (u :: us)).run s).2 = ((forUsers f us).run ((f u).run s).2).2 := by
  rw [forUsers, Prog.run_bind]

theorem OnUser.count_le (hf : OnUser room f) : ∀ (us : List UserId) (s : StateCache),
    s.count ≤ ((forUsers f us).run s).2.count
  | [], _ => Nat.le_refl _
  | u :: us, s => by
    rw [forUsers_run]
    exact (hf.count u s).trans (hf.count_le us _)

theorem OnUser.rows_of_notMem (hf : OnUser room f) {u : UserId} : ∀ (us : List UserId) (s : StateCache), u ∉ us →
    ((forUsers f us).run s).2.rowsOf u room = s.rowsOf u room
  | [], _, _ => rfl
  | v :: us, s, h => by
    obtain ⟨hne, hus⟩ := not_or.mp (fun hor => h (List.mem_cons.mpr hor))
    rw [forUsers_run, hf.rows_of_notMem us _ hus, hf.others u v s hne]

theorem OnUser.rows_of_mem (hf : OnUser room f) {u : UserId} : ∀ (us : List UserId)
    (s : StateCache), us.Nodup → u ∈ us →
    ∃ s', s'.rowsOf u room = s.rowsOf u room ∧ s.count ≤ s'.count ∧
      ((forUsers f us).run s).2.rowsOf u room = ((f u).run s').2.rowsOf u room ∧
      ((f u).run s').2.count ≤ ((forUsers f us).run s).2.count
  | v :: us, s, hnodup, hmem => by
    obtain ⟨hv, hus⟩ := List.nodup_cons.mp hnodup
    rw [forUsers_run]
    by_cases heq : u = v
    · subst heq
      exact ⟨s, rfl, Nat.le_refl _, hf.rows_of_notMem us _ hv, hf.count_le us _⟩
    · obtain ⟨s', hrows, hcount, hafter, hle⟩ :=
        hf.rows_of_mem us ((f v).run s).2 hus (List.mem_of_ne_of_mem heq hmem)
      exact ⟨s', hrows.trans (hf.others u v s heq), (hf.count v s).trans hcount, hafter, hle⟩

theorem forUsers_idle : ∀ (us : List UserId) (s : StateCache), (∀ u ∈ us, ((f u).run s).2 = s) →
    ((forUsers f us).run s).2 = s
  | [], _, _ => rfl
  | u :: us, s, h => by
    rw [forUsers_run, h u List.mem_cons_self]
    exact forUsers_idle us s fun v hv => h v (List.mem_cons_of_mem u hv)

end

/-! ## The marks -/

section
variable {plat : Platform} {summaryStripped : Pdu → List StrippedEvent} {st : RoomState} {room : RoomId}

theorem onUser_call (c : UserId → MembershipCall) (hc : ∀ u, (MembershipOp.call (c u)).userRoom = (u, room))
    (hcount : ∀ u s, s.count ≤ ((c u).prog.run s).2.count) : OnUser room fun u => (c u).prog := by
  refine ⟨fun u v s h => ?_, hcount⟩
  have huser : (MembershipOp.call (c v)).user = v := congrArg Prod.fst (hc v)
  have hroom : (MembershipOp.call (c v)).room = room := congrArg Prod.snd (hc v)
  have hspec := (MembershipOp.run_spec (s := s) (MembershipOp.call (c v)) (huser.symm ▸ h)).1
  rwa [hroom] at hspec

theorem OnUser.unless {f : UserId → StateCache.Op Unit} (hf : OnUser room f) (skip : UserId → Bool) :
    OnUser room fun u => if skip u then pure () else f u := by
  constructor
  · intro u v s h
    by_cases hv : skip v = true
    · simp only [hv, ite_true, Prog.run_pure]
    · simp only [hv]
      exact hf.others u v s h
  · intro v s
    by_cases hv : skip v = true
    · simp only [hv, ite_true, Prog.run_pure, le_refl]
    · simp only [hv]
      exact hf.count v s

theorem joined_onUser : OnUser room fun u => StateCache.markAsJoinedSilent u room :=
  onUser_call (fun u => .joinedSilent u room) (fun _ => rfl) fun _ _ => Nat.le_refl _

theorem left_rows (u : UserId) (s : StateCache) :
    ((StateCache.markAsLeftSilent u room).run s).2.count = s.count + 1 ∧
      (((StateCache.markAsLeftSilent u room).run s).2.rowsOf u room).leftCount = some (s.count + 1) ∧
      (((StateCache.markAsLeftSilent u room).run s).2.rowsOf u room).joined.2 = false ∧
      (((StateCache.markAsLeftSilent u room).run s).2.rowsOf u room).inviteState = (s.rowsOf u room).inviteState ∧
      (((StateCache.markAsLeftSilent u room).run s).2.rowsOf u room).inviteCount =
        if (s.rowsOf u room).inviteState.isSome then (s.rowsOf u room).inviteCount else none := by
  have hrun : ((StateCache.markAsLeftSilent u room).run s).2 =
      StateCache.commitLeft u room none (s.count + 1) (s.userroomidInvitestate u room).isSome
        { s with count := s.count + 1 } := rfl
  rw [hrun]
  cases hstate : s.userroomidInvitestate u room <;>
    simp [StateCache.commitLeft, StateCache.setOtherMembershipStates, StateCache.rowsOf, setEntry_apply, hstate]

theorem left_onUser : OnUser room fun u => StateCache.markAsLeftSilent u room :=
  onUser_call (fun u => .leftSilent u room) (fun _ => rfl) fun u s => by
    show s.count ≤ ((StateCache.markAsLeftSilent u room).run s).2.count
    rw [(left_rows u s).1]
    exact Nat.le_succ _

theorem joined_rows (u : UserId) (s : StateCache) :
    (((StateCache.markAsJoinedSilent u room).run s).2.rowsOf u room).joined.2 = true ∧
      (((StateCache.markAsJoinedSilent u room).run s).2.rowsOf u room).inviteCount = none := by
  have hrun : ((StateCache.markAsJoinedSilent u room).run s).2 = (s.commitJoined u room).unforget u room := rfl
  rw [hrun]
  simp [StateCache.unforget, StateCache.commitJoined, StateCache.setOtherMembershipStates,
    StateCache.rowsOf, setEntry_apply]

theorem inviteFromState_call (u : UserId) : ∃ lastState sender,
    inviteFromState summaryStripped st room u = (MembershipCall.invitedSilent u room lastState
      sender none).prog := by
  unfold inviteFromState
  cases st.member u with
  | some pdu => exact ⟨_, _, rfl⟩
  | none => exact ⟨_, _, rfl⟩

theorem invited_rows (u : UserId) (s : StateCache) :
    (((inviteFromState summaryStripped st room u).run s).2.rowsOf u room).inviteCount.isSome = true := by
  obtain ⟨lastState, sender, heq⟩ := @inviteFromState_call summaryStripped st room u
  have hrun : ((inviteFromState summaryStripped st room u).run s).2 =
      ((StateCache.commitInvited u room sender (lastState.getD []) (s.count + 2)
        { s with count := s.count + 1 }).unforget u room) := by
    rw [heq]
    rfl
  rw [hrun]
  simp [StateCache.unforget, StateCache.commitInvited, StateCache.setOtherMembershipStates,
    StateCache.rowsOf, setEntry_apply]

theorem invite_onUser : OnUser room fun u => inviteFromState summaryStripped st room u := by
  constructor
  · intro u v s h
    obtain ⟨lastState, sender, heq⟩ := @inviteFromState_call summaryStripped st room v
    rw [heq]
    exact (MembershipOp.run_spec (s := s) (.call (.invitedSilent v room lastState sender none)) h).1
  · intro v s
    obtain ⟨lastState, sender, heq⟩ := @inviteFromState_call summaryStripped st room v
    rw [heq]
    exact Nat.le_succ s.count

/-! ## One user through a run -/

/-- What a user's rows become between two states: the ones after an operation on the user,
with other users' operations before and after it. -/
def Evolves (u : UserId) (room : RoomId) (p : StateCache.Op Unit) (s s' : StateCache) : Prop :=
  ∃ m, m.rowsOf u room = s.rowsOf u room ∧ s.count ≤ m.count ∧ s'.rowsOf u room = (p.run m).2.rowsOf u room ∧
    (p.run m).2.count ≤ s'.count

theorem OnUser.evolves {f : UserId → StateCache.Op Unit} (hf : OnUser room f) {us : List UserId} (hus : us.Nodup)
    {u : UserId} (p : UserId → Bool) (hp : p u = true → u ∈ us) (s : StateCache) :
    Evolves u room (if p u then f u else pure ()) s ((forUsers f (us.filter p)).run s).2 := by
  by_cases hu : p u = true
  · rw [if_pos hu]
    exact hf.rows_of_mem _ s (hus.filter p) (List.mem_filter.mpr ⟨hp hu, hu⟩)
  · have hmem : u ∉ us.filter p := fun hmem => hu (List.mem_filter.mp hmem).2
    rw [if_neg hu]
    exact ⟨s, rfl, Nat.le_refl _, hf.rows_of_notMem _ s hmem, hf.count_le _ s⟩

section
variable {u : UserId} {s s' : StateCache}

theorem Evolves.idle (h : Evolves u room (pure ()) s s') : s'.rowsOf u room = s.rowsOf u room ∧
    s.count ≤ s'.count := by
  obtain ⟨m, hrows, hcount, hafter, hle⟩ := h
  exact ⟨hafter.trans hrows, hcount.trans hle⟩

theorem Evolves.joined (h : Evolves u room (StateCache.markAsJoinedSilent u room) s s') :
    (s'.rowsOf u room).joined.2 = true := by
  obtain ⟨m, -, -, hafter, -⟩ := h
  rw [hafter]
  exact (joined_rows u m).1

theorem Evolves.invited (h : Evolves u room (inviteFromState summaryStripped st room u) s s') :
    (s'.rowsOf u room).inviteCount.isSome = true := by
  obtain ⟨m, -, -, hafter, -⟩ := h
  rw [hafter]
  exact invited_rows u m

theorem Evolves.left (h : Evolves u room (StateCache.markAsLeftSilent u room) s s') :
    (∃ n, (s'.rowsOf u room).leftCount = some n ∧ s.count < n ∧ n ≤ s'.count) ∧
      (s'.rowsOf u room).joined.2 = false ∧ (s'.rowsOf u room).inviteState = (s.rowsOf u room).inviteState ∧
      (s'.rowsOf u room).inviteCount =
        if (s.rowsOf u room).inviteState.isSome then (s.rowsOf u room).inviteCount else none := by
  obtain ⟨m, hrows, hcount, hafter, hle⟩ := h
  obtain ⟨hcount', hleft, hjoined, hstate, hinvite⟩ := @left_rows room u m
  rw [hafter, ← hrows]
  rw [hcount'] at hle
  exact ⟨⟨m.count + 1, hleft, Nat.lt_succ_of_le hcount, hle⟩, hjoined, hstate, hinvite⟩

end

variable (plat st room) in
/-- Users without repetition, among them each who has a row or whom the state has joined or
invited. -/
structure ListsAll (s : StateCache) (users : List UserId) : Prop where
  nodup : users.Nodup
  joined : ∀ u, s.roomuseridJoined room u = true → u ∈ users
  invited : ∀ u, (s.roomuseridInvitecount room u).isSome = true → u ∈ users
  joins : ∀ u, st.gives plat "join" u = true → u ∈ users
  invites : ∀ u, st.gives plat "invite" u = true → u ∈ users

variable (plat st room) in
def Stale (s : StateCache) (u : UserId) : Prop :=
  st.gives plat "join" u = false ∧ st.gives plat "invite" u = false ∧
    (s.roomuseridInvitecount room u).isSome = true ∧ (s.userroomidInvitestate u room).isSome = true

variable (plat st room) in
/-- Nothing about the user is to be repaired. -/
structure Reconciled (s : StateCache) (u : UserId) : Prop where
  joins : st.gives plat "join" u = true → s.roomuseridJoined room u = true
  invites : st.gives plat "invite" u = true →
    (s.roomuseridInvitecount room u).isSome = true ∨ s.roomuseridJoined room u = true
  joined : s.roomuseridJoined room u = true → st.gives plat "join" u = true ∨ st.gives plat "invite" u = true
  invited : (s.roomuseridInvitecount room u).isSome = true →
    st.gives plat "join" u = true ∨ st.gives plat "invite" u = true

section
variable {s : StateCache} {orders : Nat → List UserId} (ho : ∀ i, ListsAll plat st room s (orders i))
include ho

theorem marks_evolve (u : UserId) : ∃ s₁ s₂ s₃,
    Evolves u room (if st.gives plat "join" u && !s.roomuseridJoined room
      u then StateCache.markAsJoinedSilent u room
      else pure ()) s s₁ ∧
    Evolves u room (if st.gives plat "invite" u && !(s.roomuseridInvitecount room u).isSome then
      (if s.roomuseridJoined room u then pure () else inviteFromState summaryStripped st room u)
        else pure ()) s₁ s₂ ∧
    Evolves u room (if s.roomuseridJoined room u && !st.gives plat "join" u then
      (if st.gives plat "invite" u then pure () else StateCache.markAsLeftSilent u room) else pure ()) s₂ s₃ ∧
    Evolves u room (if (s.roomuseridInvitecount room u).isSome && !st.gives plat "invite" u then
      (if st.gives plat "join" u then pure () else StateCache.markAsLeftSilent u room) else pure ()) s₃
      ((reconcileMarks plat summaryStripped st room orders).run s).2 := by
  unfold reconcileMarks
  simp only [Prog.run_bind, Prog.run_read]
  refine ⟨_, _, _, joined_onUser.evolves (ho 0).nodup _ (fun h => (ho 0).joins u (Bool.and_eq_true_iff.mp h).1) s,
    (invite_onUser.unless (s.roomuseridJoined room)).evolves (ho 1).nodup
      (fun u => st.gives plat "invite" u && !(s.roomuseridInvitecount room u).isSome)
      (fun h => (ho 1).invites u (Bool.and_eq_true_iff.mp h).1) _,
    (left_onUser.unless (st.gives plat "invite")).evolves (ho 2).nodup
      (fun u => s.roomuseridJoined room u && !st.gives plat "join" u)
      (fun h => (ho 2).joined u (Bool.and_eq_true_iff.mp h).1) _,
    (left_onUser.unless (st.gives plat "join")).evolves (ho 3).nodup
      (fun u => (s.roomuseridInvitecount room u).isSome && !st.gives plat "invite" u)
      (fun h => (ho 3).invited u (Bool.and_eq_true_iff.mp h).1) _⟩

theorem stale_again {u : UserId} (h : Stale plat st room s u) :
    Stale plat st room ((reconcileMarks plat summaryStripped st room orders).run s).2 u ∧
      ∃ n, ((reconcileMarks plat summaryStripped st room orders).run s).2.roomuseridLeftcount room u = some n ∧
        s.count < n ∧ n ≤ ((reconcileMarks plat summaryStripped st room orders).run s).2.count := by
  obtain ⟨hjoin, hinvite, hcached, hstate⟩ := h
  obtain ⟨s₁, s₂, s₃, e₁, e₂, e₃, e₄⟩ := @marks_evolve plat summaryStripped st room s orders ho u
  simp only [hjoin, hinvite, hcached, Bool.false_and, Bool.not_false, Bool.and_self, Bool.and_true,
    Bool.false_eq_true, if_false, if_true] at e₁ e₂ e₃ e₄
  obtain ⟨hrows₁, hcount₁⟩ := e₁.idle
  obtain ⟨hrows₂, hcount₂⟩ := e₂.idle
  have hkept : (s₃.rowsOf u room).inviteState = (s.rowsOf u room).inviteState ∧
      (s₃.rowsOf u room).inviteCount = (s.rowsOf u room).inviteCount ∧ s₂.count ≤ s₃.count := by
    by_cases hj : s.roomuseridJoined room u = true
    · rw [if_pos hj] at e₃
      obtain ⟨⟨n, -, hlt, hle⟩, -, hstate₃, hcount₃⟩ := e₃.left
      rw [hrows₂, hrows₁] at hstate₃ hcount₃
      exact ⟨hstate₃, hcount₃.trans (if_pos hstate), hlt.le.trans hle⟩
    · rw [if_neg hj] at e₃
      obtain ⟨hrows₃, hcount₃⟩ := e₃.idle
      rw [hrows₃, hrows₂, hrows₁]
      exact ⟨rfl, rfl, hcount₃⟩
  obtain ⟨⟨n, hleft, hlt, hle⟩, -, hstate₄, hcount₄⟩ := e₄.left
  have hsome : (s₃.rowsOf u room).inviteState.isSome = true := hkept.1 ▸ hstate
  rw [hkept.1] at hstate₄
  rw [if_pos hsome, hkept.2.1] at hcount₄
  refine ⟨⟨hjoin, hinvite, ?_, ?_⟩, n, hleft, ?_, hle⟩
  · exact (congrArg Option.isSome hcount₄).trans hcached
  · exact (congrArg Option.isSome hstate₄).trans hstate
  · exact lt_of_le_of_lt (hcount₁.trans (hcount₂.trans hkept.2.2)) hlt

theorem reconciled_joined {u : UserId} (hjoin : st.gives plat "join" u = true)
    (hinvite : st.gives plat "invite" u = false) :
    Reconciled plat st room ((reconcileMarks plat summaryStripped st room orders).run s).2 u := by
  obtain ⟨s₁, s₂, s₃, e₁, e₂, e₃, e₄⟩ := @marks_evolve plat summaryStripped st room s orders ho u
  generalize ((reconcileMarks plat summaryStripped st room orders).run s).2 = s' at e₄ ⊢
  simp only [hjoin, hinvite, Bool.true_and, Bool.false_and, Bool.not_true, Bool.not_false, Bool.and_true,
    Bool.and_false, Bool.false_eq_true, if_false, if_true, ite_self] at e₁ e₂ e₃ e₄
  have hrows := e₄.idle.1.trans (e₃.idle.1.trans e₂.idle.1)
  have hjoined : (s'.rowsOf u room).joined.2 = true := by
    rw [hrows]
    by_cases hj : s.roomuseridJoined room u = true
    · simp only [hj, Bool.not_true, Bool.false_eq_true, if_false] at e₁
      rw [e₁.idle.1]
      exact hj
    · simp only [hj, Bool.not_false, if_true] at e₁
      exact e₁.joined
  exact ⟨fun _ => hjoined, fun hi => absurd (hinvite.symm.trans hi) Bool.false_ne_true, fun _ => .inl hjoin,
    fun _ => .inl hjoin⟩

theorem reconciled_invited {u : UserId} (hjoin : st.gives plat "join" u = false)
    (hinvite : st.gives plat "invite" u = true) :
    Reconciled plat st room ((reconcileMarks plat summaryStripped st room orders).run s).2 u := by
  obtain ⟨s₁, s₂, s₃, e₁, e₂, e₃, e₄⟩ := @marks_evolve plat summaryStripped st room s orders ho u
  generalize ((reconcileMarks plat summaryStripped st room orders).run s).2 = s' at e₄ ⊢
  simp only [hjoin, hinvite, Bool.true_and, Bool.false_and, Bool.not_true, Bool.and_false,
    Bool.false_eq_true, if_false, if_true, ite_self] at e₁ e₂ e₃ e₄
  have hlate := e₄.idle.1.trans e₃.idle.1
  have hhas : (s'.rowsOf u room).inviteCount.isSome = true ∨
      (s'.rowsOf u room).joined.2 = true := by
    rw [hlate]
    by_cases hc : (s.roomuseridInvitecount room u).isSome = true
    · simp only [hc, Bool.not_true, Bool.false_eq_true, if_false] at e₂
      rw [e₂.idle.1, e₁.idle.1]
      exact .inl hc
    · by_cases hj : s.roomuseridJoined room u = true
      · simp only [hj, if_true, ite_self] at e₂
        rw [e₂.idle.1, e₁.idle.1]
        exact .inr hj
      · simp only [hc, hj, Bool.not_false, if_true] at e₂
        exact .inl e₂.invited
  exact ⟨fun hj => absurd (hjoin.symm.trans hj) Bool.false_ne_true, fun _ => hhas, fun _ => .inr hinvite,
    fun _ => .inr hinvite⟩

theorem reconciled_neither {u : UserId} (hjoin : st.gives plat "join" u = false)
    (hinvite : st.gives plat "invite" u = false) (h : ¬ Stale plat st room s u) :
    Reconciled plat st room ((reconcileMarks plat summaryStripped st room orders).run s).2 u := by
  obtain ⟨s₁, s₂, s₃, e₁, e₂, e₃, e₄⟩ := @marks_evolve plat summaryStripped st room s orders ho u
  generalize ((reconcileMarks plat summaryStripped st room orders).run s).2 = s' at e₄ ⊢
  simp only [hjoin, hinvite, Bool.false_and, Bool.not_false, Bool.and_true, Bool.false_eq_true,
    if_false] at e₁ e₂ e₃ e₄
  have hearly := e₂.idle.1.trans e₁.idle.1
  have hstate : (s.rowsOf u room).inviteCount.isSome = true → (s.rowsOf u room).inviteState.isSome = false := by
    intro hc
    rw [← Bool.not_eq_true]
    exact fun hs => h ⟨hjoin, hinvite, hc, hs⟩
  -- The invite is gone behind the third loop, or was not followed by a state to keep it for.
  have hthird : (s₃.rowsOf u room).joined.2 = false ∧
      ((s₃.rowsOf u room).inviteCount = none ∨
        (s.roomuseridInvitecount room u).isSome = true ∧ (s₃.rowsOf u room).inviteState.isSome = false) := by
    by_cases hj : s.roomuseridJoined room u = true
    · rw [if_pos hj] at e₃
      obtain ⟨-, hjoined, -, hcount⟩ := e₃.left
      refine ⟨hjoined, .inl ?_⟩
      rw [hcount, hearly]
      by_cases hc : (s.rowsOf u room).inviteCount.isSome = true
      · simp only [hstate hc, Bool.false_eq_true, if_false]
      · rw [Option.not_isSome_iff_eq_none.mp hc, ite_self]
    · rw [if_neg hj] at e₃
      rw [e₃.idle.1, hearly]
      refine ⟨Bool.not_eq_true _ ▸ hj, ?_⟩
      by_cases hc : (s.rowsOf u room).inviteCount.isSome = true
      · exact .inr ⟨hc, hstate hc⟩
      · exact .inl (Option.not_isSome_iff_eq_none.mp hc)
  have hlast : (s'.rowsOf u room).joined.2 = false ∧
      (s'.rowsOf u room).inviteCount = none := by
    by_cases hc : (s.roomuseridInvitecount room u).isSome = true
    · rw [if_pos hc] at e₄
      obtain ⟨-, hjoined, -, hcount⟩ := e₄.left
      refine ⟨hjoined, ?_⟩
      rw [hcount]
      rcases hthird.2 with hnone | ⟨-, hgone⟩
      · rw [hnone, ite_self]
      · rw [hgone]
        rfl
    · rw [if_neg hc] at e₄
      rw [e₄.idle.1]
      exact ⟨hthird.1, hthird.2.resolve_right fun hcached => hc hcached.1⟩
  refine ⟨fun hj => absurd (hjoin.symm.trans hj) Bool.false_ne_true,
    fun hi => absurd (hinvite.symm.trans hi) Bool.false_ne_true, fun hj => ?_, fun hi => ?_⟩
  · exact absurd (hlast.1.symm.trans hj) Bool.false_ne_true
  · exact absurd ((congrArg Option.isSome hlast.2).symm.trans hi) Bool.false_ne_true

theorem reconciled_after {u : UserId} (hone : st.gives plat "join" u = true → st.gives plat "invite" u = false)
    (h : ¬ Stale plat st room s u) :
    Reconciled plat st room ((reconcileMarks plat summaryStripped st room orders).run s).2 u := by
  cases hjoin : st.gives plat "join" u with
  | true => exact reconciled_joined ho hjoin (hone hjoin)
  | false =>
    cases hinvite : st.gives plat "invite" u with
    | true => exact reconciled_invited ho hjoin hinvite
    | false => exact reconciled_neither ho hjoin hinvite h

omit ho in
theorem marks_idle (h : ∀ u, Reconciled plat st room s u) :
    ((reconcileMarks plat summaryStripped st room orders).run s).2 = s := by
  unfold reconcileMarks
  simp only [Prog.run_bind, Prog.run_read]
  have hidle : ∀ (f : UserId → StateCache.Op Unit) (users : List UserId) (p q : UserId → Bool),
      (∀ u, p u = true → q u = false → ((f u).run s).2 = s) →
      ((forUsers f (users.filter fun u => p u && !q u)).run s).2 = s := by
    intro f users p q hf
    refine forUsers_idle _ s fun u hu => ?_
    obtain ⟨hp, hq⟩ := Bool.and_eq_true_iff.mp (List.mem_filter.mp hu).2
    exact hf u hp (Bool.not_eq_true' _ |>.mp hq)
  rw [hidle (fun u => StateCache.markAsJoinedSilent u room), hidle _ (orders 1),
    hidle _ (orders 2), hidle _ (orders 3)]
  · intro u hcached hinvite
    rw [if_pos (((h u).invited hcached).resolve_right (Bool.eq_false_iff.mp hinvite))]
    rfl
  · intro u hcached hjoin
    rw [if_pos (((h u).joined hcached).resolve_left (Bool.eq_false_iff.mp hjoin))]
    rfl
  · intro u hinvite hcached
    show ((if s.roomuseridJoined room u = true then pure ()
      else inviteFromState summaryStripped st room u : StateCache.Op Unit).run s).2 = s
    rw [if_pos (((h u).invites hinvite).resolve_left (Bool.eq_false_iff.mp hcached))]
    rfl
  · intro u hjoin hcached
    exact absurd ((h u).joins hjoin) (Bool.eq_false_iff.mp hcached)

end

end

/-! ## One membership for each user -/

theorem exists_of_mapM {α β : Type} {f : α → Option β} : ∀ {l : List α} {r : List β}, l.mapM f = some r → ∀ b ∈ r,
    ∃ a ∈ l, f a = some b
  | [], r, h, b, hb => by
    cases h
    cases hb
  | a :: l, r, h, b, hb => by
    rw [List.mapM_cons] at h
    obtain ⟨x, hx, h⟩ := Option.bind_eq_some_iff.mp h
    obtain ⟨xs, hxs, h⟩ := Option.bind_eq_some_iff.mp h
    cases h
    rcases List.mem_cons.mp hb with rfl | hb
    · exact ⟨a, List.mem_cons_self, hx⟩
    · obtain ⟨a', ha', hf⟩ := exists_of_mapM hxs b hb
      exact ⟨a', List.mem_cons_of_mem a ha', hf⟩

namespace RoomState

variable {plat : Platform} (hparse : ∀ k u, plat.codec.parseUserId k = some u → u = k) {st : RoomState}

include hparse in
theorem member_of_gives {membership : String} {u : UserId} (h : st.gives plat membership u = true) :
    ∃ pdu, st.member u = some pdu ∧ word pdu = membership := by
  unfold gives at h
  obtain ⟨pdu, hpdu, hboth⟩ := List.any_eq_true.mp h
  obtain ⟨huser, hword⟩ := of_decide_eq_true hboth
  refine ⟨pdu, ?_, hword⟩
  unfold pdus at hpdu
  unfold member
  cases hroot : st.root with
  | none =>
    rw [hroot] at hpdu
    cases hpdu
  | some state =>
    rw [hroot] at hpdu
    simp only at hpdu
    cases hpdus : state.entries.mapM fun e => st.view e.2 with
    | none =>
      rw [hpdus] at hpdu
      cases hpdu
    | some pdus =>
      rw [hpdus] at hpdu
      obtain ⟨e, he, hview⟩ := exists_of_mapM hpdus pdu hpdu
      have hlookup : state.lookup e.1 = some e.2 := AList.mem_lookup_iff.mpr he
      obtain ⟨hkind, hkey⟩ := st.keyed state hroot e.1 e.2 pdu hlookup hview
      unfold memberUser at huser
      split at huser
      · rename_i hmember
        rw [hkey] at huser
        have hu : u = e.1.2 := hparse _ _ huser
        have hentry : e.1 = (.roomMember, u) := Prod.ext (hkind.symm.trans hmember) hu.symm
        show (state.lookup (.roomMember, u)).bind st.view = some pdu
        rw [← hentry, hlookup]
        exact hview
      · cases huser

include hparse in
theorem invite_of_join {u : UserId} (h : st.gives plat "join" u = true) : st.gives plat "invite" u = false := by
  rw [← Bool.not_eq_true]
  intro hinvite
  obtain ⟨pdu, hpdu, hjoin⟩ := member_of_gives hparse h
  obtain ⟨pdu', hpdu', hinvite⟩ := member_of_gives hparse hinvite
  rw [hpdu, Option.some.injEq] at hpdu'
  rw [← hpdu', hjoin] at hinvite
  exact absurd hinvite (by decide)

end RoomState

/-! ## Two runs -/

/-- All tables hold the same. -/
structure MembershipTables.Same (t t' : MembershipTables) : Prop where
  rows : ∀ u r, t.cache.rowsOf u r = t'.cache.rowsOf u r
  via : t.cache.roomidInviteviaservers = t'.cache.roomidInviteviaservers
  joinedcount : t.roomidJoinedcount = t'.roomidJoinedcount
  invitedcount : t.roomidInvitedcount = t'.roomidInvitedcount
  roomserverids : t.roomserverids = t'.roomserverids
  serverroomids : t.serverroomids = t'.serverroomids

theorem filter_perm {us us' : List UserId} {p : UserId → Bool} (hus : us.Nodup) (hus' : us'.Nodup)
    (h : ∀ u, p u = true → u ∈ us) (h' : ∀ u, p u = true → u ∈ us') : (us.filter p).Perm (us'.filter p) := by
  rw [List.perm_ext_iff_of_nodup (hus.filter p) (hus'.filter p)]
  intro u
  rw [List.mem_filter, List.mem_filter]
  exact ⟨fun hu => ⟨h' u hu.2, hu.2⟩, fun hu => ⟨h u hu.2, hu.2⟩⟩

section
variable {plat : Platform} {summaryStripped : Pdu → List StrippedEvent} {st : RoomState} {room : RoomId}
  {orders orders' : Nat → List UserId} {t : MembershipTables}

theorem ListsAll.of_reconciled {s s' : StateCache} {users : List UserId} (h : ListsAll plat st room s users)
    (hs' : ∀ u, Reconciled plat st room s' u) : ListsAll plat st room s' users := by
  have hlisted : ∀ u, st.gives plat "join" u = true ∨ st.gives plat "invite" u = true → u ∈ users :=
    fun u hu => hu.elim (h.joins u) (h.invites u)
  exact ⟨h.nodup, fun u hu => hlisted u ((hs' u).joined hu), fun u hu => hlisted u ((hs' u).invited hu),
    h.joins, h.invites⟩

theorem updateJoinedCount_again (ho : ∀ i, ListsAll plat st room t.cache (orders i))
    (ho' : ∀ i, ListsAll plat st room t.cache (orders' i)) :
    (updateJoinedCount plat room orders t).Same
      (updateJoinedCount plat room orders' (updateJoinedCount plat room orders t)) := by
  have hmembers := filter_perm (ho 4).nodup (ho' 4).nodup (ho 4).joined (ho' 4).joined
  have hinvited := filter_perm (ho 5).nodup (ho' 5).nodup (ho 5).invited (ho' 5).invited
  have hservers : ∀ v, v ∈ ((orders 4).filter fun u => t.cache.roomuseridJoined room u).map
    plat.codec.userServerName ↔
      v ∈ ((orders' 4).filter fun u => t.cache.roomuseridJoined room u).map plat.codec.userServerName :=
    fun v => (hmembers.map _).mem_iff
  refine ⟨fun _ _ => rfl, rfl, ?_, ?_, ?_, ?_⟩
  · funext r
    by_cases hr : r = room
    · simp only [updateJoinedCount, hr, if_true]
      exact congrArg some hmembers.length_eq
    · simp only [updateJoinedCount, hr, if_false]
  · funext r
    by_cases hr : r = room
    · simp only [updateJoinedCount, hr, if_true]
      exact congrArg some hinvited.length_eq
    · simp only [updateJoinedCount, hr, if_false]
  · funext r v
    by_cases hr : r = room
    · simp only [updateJoinedCount, hr, if_true]
      exact decide_eq_decide.mpr (hservers v)
    · simp only [updateJoinedCount, hr, if_false]
  · funext v r
    have hsame : decide (v ∈ ((orders 4).filter fun u => t.cache.roomuseridJoined room u).map
      plat.codec.userServerName) =
        decide (v ∈ ((orders' 4).filter fun u => t.cache.roomuseridJoined room u).map plat.codec.userServerName) :=
      decide_eq_decide.mpr (hservers v)
    refine (if_neg ?_).symm
    rintro ⟨-, hne⟩
    refine hne ?_
    simp only [updateJoinedCount, if_true]
    exact hsame

theorem reconcile_of_pdus {pdus : List Pdu} (hpdus : st.pdus = some pdus) (orders : Nat → List UserId)
    (t : MembershipTables) :
    reconcileMembership plat summaryStripped st room orders t =
      updateJoinedCount plat room orders
        { t with cache := ((reconcileMarks plat summaryStripped st room orders).run t.cache).2 } := by
  unfold reconcileMembership
  rw [hpdus]

theorem reconcile_cache {pdus : List Pdu} (hpdus : st.pdus = some pdus) (orders : Nat → List UserId)
    (t : MembershipTables) :
    (reconcileMembership plat summaryStripped st room orders t).cache =
      ((reconcileMarks plat summaryStripped st room orders).run t.cache).2 := by
  rw [reconcile_of_pdus hpdus]
  rfl

/-- A second run leaves the tables as the first left them exactly where no user whom the
state has neither joined nor invited has a pending invite, or the state is incomplete. -/
theorem reconcile_twice_iff (hparse : ∀ k u, plat.codec.parseUserId k = some u → u = k)
    (ho : ∀ i, ListsAll plat st room t.cache (orders i))
    (ho' : ∀ i, ListsAll plat st room (reconcileMembership plat summaryStripped st room orders t).cache
      (orders' i)) :
    (reconcileMembership plat summaryStripped st room orders t).Same
        (reconcileMembership plat summaryStripped st room orders'
          (reconcileMembership plat summaryStripped st room orders t)) ↔
      (st.pdus.isSome = true → ∀ u, ¬ Stale plat st room t.cache u) := by
  cases hpdus : st.pdus with
  | none =>
    have hnone : ∀ orders t, reconcileMembership plat summaryStripped st room orders t = t := by
      intro orders t
      unfold reconcileMembership
      rw [hpdus]
    rw [hnone orders t, hnone orders' t]
    exact ⟨fun _ h => absurd h Bool.false_ne_true, fun _ => ⟨fun _ _ => rfl, rfl, rfl, rfl, rfl, rfl⟩⟩
  | some pdus =>
    constructor
    · intro hsame _ u hstale
      obtain ⟨hstale', n, hn, -, hle⟩ := @stale_again plat summaryStripped st room _ _ ho u hstale
      rw [← reconcile_cache hpdus] at hstale' hn hle
      obtain ⟨-, n', hn', hlt, -⟩ := @stale_again plat summaryStripped st room _ _ ho' u hstale'
      rw [← reconcile_cache hpdus] at hn'
      have hrow := congrArg UserRows.leftCount (hsame.rows u room)
      have hnn : some n = some n' := hn.symm.trans (hrow.trans hn')
      have := Option.some.inj hnn
      omega
    · intro hstale
      have hreconciled : ∀ u, Reconciled plat st room
          ((reconcileMarks plat summaryStripped st room orders).run t.cache).2 u :=
        fun u => reconciled_after ho (RoomState.invite_of_join hparse) (hstale rfl u)
      have hlists : ∀ i, ListsAll plat st room ((reconcileMarks plat summaryStripped st room orders).run t.cache).2
          (orders i) :=
        fun i => (ho i).of_reconciled hreconciled
      have hidle : ((reconcileMarks plat summaryStripped st room orders').run
          (reconcileMembership plat summaryStripped st room orders t).cache).2 =
          (reconcileMembership plat summaryStripped st room orders t).cache := by
        rw [reconcile_cache hpdus]
        exact marks_idle hreconciled
      rw [reconcile_of_pdus hpdus orders', hidle]
      simp only [reconcile_cache hpdus] at ho'
      have hagain := updateJoinedCount_again (t :=
        { t with cache := ((reconcileMarks plat summaryStripped st room orders).run t.cache).2 }) hlists ho'
      rw [← reconcile_of_pdus hpdus] at hagain
      exact hagain

end

/-! ## A run that settles, and one that does not -/

def MembershipTables.of (cache : StateCache) : MembershipTables :=
  ⟨cache, fun _ => none, fun _ => none, fun _ _ => false, fun _ _ => false⟩

/-- One user has joined, another is invited. -/
def membersState : RoomState where
  root := some membersRoot
  view := withMembersView
  keyed := by
    rintro state ⟨⟩
    exact (filed_of_entries (by decide)).keys

def bothUsers (_ : Nat) : List UserId := ["@u:b", "@v:b"]

theorem membersState_lists (i : Nat) : ListsAll .union membersState "!r:a" {} (bothUsers i) := by
  have hgives : ∀ membership u, membersState.gives .union membership u = true → u ∈ bothUsers i := by
    intro membership u h
    unfold RoomState.gives at h
    obtain ⟨pdu, hpdu, hboth⟩ := List.any_eq_true.mp h
    have hall : ∀ pdu ∈ membersState.pdus.getD [], ∀ u ∈ memberUser .union pdu, u ∈ bothUsers 0 := by decide
    exact hall pdu hpdu u (of_decide_eq_true hboth).1
  have hnodup : (bothUsers 0).Nodup := by decide
  exact ⟨hnodup, fun _ h => absurd h Bool.false_ne_true, fun _ h => absurd h Bool.false_ne_true,
    hgives "join", hgives "invite"⟩

theorem membersState_stable :
    (reconcileMembership .union (fun _ => []) membersState "!r:a" bothUsers (.of {})).Same
      (reconcileMembership .union (fun _ => []) membersState "!r:a" bothUsers
        (reconcileMembership .union (fun _ => []) membersState "!r:a" bothUsers (.of {}))) := by
  have hstale : ∀ u, ¬ Stale .union membersState "!r:a" {} u := by
    rintro u ⟨-, -, hcount, -⟩
    exact absurd hcount Bool.false_ne_true
  have hreconciled : ∀ u, Reconciled .union membersState "!r:a"
      ((reconcileMarks .union (fun _ => []) membersState "!r:a" bothUsers).run {}).2 u :=
    fun u => reconciled_after membersState_lists (RoomState.invite_of_join union_parseUserId) (hstale u)
  have hsome : membersState.pdus.isSome = true := by decide
  obtain ⟨pdus, hpdus⟩ := Option.isSome_iff_exists.mp hsome
  refine (reconcile_twice_iff (t := .of {}) union_parseUserId membersState_lists fun i => ?_).mpr fun _ => hstale
  rw [reconcile_cache hpdus]
  exact (membersState_lists i).of_reconciled hreconciled

/-- No state, and an invite from before. -/
def staleTables : MembershipTables :=
  .of ((MembershipCall.invitedSilent "@x:b" "!r:a" none none none).prog.run {}).2

def noState : RoomState := ⟨none, fun _ => none, by rintro state ⟨⟩⟩

def staleUser (_ : Nat) : List UserId := ["@x:b"]

theorem noState_lists (i : Nat) : ListsAll .union noState "!r:a" staleTables.cache (staleUser i) := by
  have hrows : ∀ u, u ∉ staleUser i → staleTables.cache.rowsOf u "!r:a" = ({} : StateCache).rowsOf u "!r:a" := by
    intro u hu
    have hne : u ≠ "@x:b" := fun heq => hu (List.mem_singleton.mpr heq)
    exact (MembershipOp.run_spec (.call (.invitedSilent "@x:b" "!r:a" none none none)) hne).1
  refine ⟨List.nodup_singleton _, fun u h => ?_, fun u h => ?_, fun _ h => absurd h Bool.false_ne_true,
    fun _ h => absurd h Bool.false_ne_true⟩
  · by_contra hu
    exact absurd ((congrArg (fun rows => rows.joined.2) (hrows u hu)).symm.trans h) Bool.false_ne_true
  · by_contra hu
    exact absurd ((congrArg (fun rows => rows.inviteCount.isSome) (hrows u hu)).symm.trans h) Bool.false_ne_true

/-- Each run marks the user as left at a new position. -/
theorem stale_invite_left_again :
    let once := reconcileMembership .union (fun _ => []) noState "!r:a" staleUser staleTables
    let twice := reconcileMembership .union (fun _ => []) noState "!r:a" staleUser once
    (∀ i, ListsAll .union noState "!r:a" staleTables.cache (staleUser i)) ∧
      once.cache.roomuseridLeftcount "!r:a" "@x:b" = some 2 ∧
      twice.cache.roomuseridLeftcount "!r:a" "@x:b" = some 3 ∧ ¬ once.Same twice := by
  intro once twice
  have honce : once.cache.roomuseridLeftcount "!r:a" "@x:b" = some 2 := by rfl
  have htwice : twice.cache.roomuseridLeftcount "!r:a" "@x:b" = some 3 := by rfl
  refine ⟨noState_lists, honce, htwice, fun hsame => ?_⟩
  have hrow : some 2 = some 3 :=
    honce.symm.trans ((congrArg UserRows.leftCount (hsame.rows "@x:b" "!r:a")).trans htwice)
  cases hrow

end Congruent
