import Congruent.LedgerSpec
import Congruent.Machine

/-!
# The joined members of a room

The table of joined members is kept by differences between two roots: members that
are gone are marked as left, changed ones are processed by their events. It follows
the room's state, except that an invite never undoes a join and that a knock may go
unrecorded.
-/

namespace Congruent

open H
open Call (Triple Leaves)

section
variable (plat : Platform) (fetch : EventId → Option Pdu) (room : RoomId)

def memberIn (root : Root) (u : UserId) : Option MembershipState :=
  ((root.lookup (.roomMember, u)).bind fetch).map (cachedMembership plat)

def IsUser (u : UserId) : Prop := plat.codec.parseUserId u = some u

/-- What the table says of a user with a membership: those who joined are in it, those
who left or were banned are not. -/
structure Matches (membership : Option MembershipState) (joined : Bool) : Prop where
  joins : membership = some .join → joined = true
  members : joined = true → membership = some .join ∨ membership = some .invite ∨ membership = some .knock

/-- Both tables of joined members are the same. -/
def JoinedAgree (c : StateCache) : Prop := ∀ u, c.userroomidJoined u room = c.roomuseridJoined room u

/-- The table matches a state for all users but some, and only those who join are new in
it. -/
structure MatchesBut (was : UserId → Bool) (root : Root) (rest : List UserId) (c : StateCache) : Prop where
  agree : JoinedAgree room c
  enters : ∀ u, IsUser plat u → c.roomuseridJoined room u = true →
    was u = true ∨ memberIn plat fetch root u = some .join
  matching : ∀ u, IsUser plat u → u ∉ rest → Matches (memberIn plat fetch root u) (c.roomuseridJoined room u)

/-- The events of a state are stored under their keys, the member events all of them. -/
structure Filed (view : EventId → Option Pdu) (root : Root) : Prop where
  keys : ∀ k id pdu, root.lookup k = some id → view id = some pdu → pdu.kind = k.1 ∧ pdu.stateKey = some k.2
  members : ∀ u id, root.lookup (.roomMember, u) = some id → view id = fetch id ∧ (fetch id).isSome

end

/-! ## One user -/

theorem setEntry_self {K V W : Type} [DecidableEq K] [DecidableEq V] (t : K → V → W) (k : K) (v : V) :
    setEntry t k v (t k v) = t := by
  funext k' v'
  unfold setEntry
  split
  · rename_i h
    rw [h.1, h.2]
  · rfl

namespace StateCache

variable {u : UserId} {room : RoomId} {c : StateCache}

theorem setOther_joined (keep : MembershipKind) (preserve : Bool) :
    (c.setOtherMembershipStates u room keep preserve).roomuseridJoined =
        (if keep = .joined then c.roomuseridJoined else setEntry c.roomuseridJoined room u false) ∧
      (c.setOtherMembershipStates u room keep preserve).userroomidJoined =
        if keep = .joined then c.userroomidJoined else setEntry c.userroomidJoined u room false := by
  cases keep <;> cases preserve <;> exact ⟨rfl, rfl⟩

def SetsJoined (u : UserId) (room : RoomId) (b : Bool) (c c' : StateCache) : Prop :=
  c'.roomuseridJoined = setEntry c.roomuseridJoined room u b ∧ c'.userroomidJoined = setEntry
    c.userroomidJoined u room b

theorem markAsJoined_joined : SetsJoined u room true c ((markAsJoined u room).run c).2 := by
  constructor <;> rfl

theorem markAsInvited_joined (sender : UserId) (lastState : Option (List StrippedEvent)) :
    SetsJoined u room false c ((markAsInvited u room false sender lastState none).run c).2 := by
  constructor <;> rfl

theorem markAsKnocked_joined (state : Option (List StrippedEvent)) :
    SetsJoined u room false c ((markAsKnocked u room state).run c).2 := by
  constructor <;> rfl

theorem markAsLeft_joined (leave : Option LeavePdu) (forgets : Bool) :
    SetsJoined u room false c ((markAsLeft u room leave forgets).run c).2 := by
  unfold SetsJoined
  cases forgets <;>
    simp [markAsLeft, nextCount, commitLeft, forget, setOther_joined]

theorem SetsJoined.same (ha : JoinedAgree room c) : SetsJoined u room (c.roomuseridJoined room u) c c := by
  constructor
  · rw [setEntry_self]
  · rw [← ha u, setEntry_self]

end StateCache

section
variable {plat : Platform} {env : Env} {room : RoomId} {u : UserId} {pdu : Pdu} {c : StateCache}

variable (plat env u pdu) in
theorem recordMembership_joined (ha : JoinedAgree room c) :
    ∃ b, StateCache.SetsJoined u room b c ((recordMembership plat env room u pdu).run c).2 ∧
      Matches (some (cachedMembership plat pdu)) b ∧
      (b = true → c.roomuseridJoined room u = true ∨ cachedMembership plat pdu = .join) := by
  unfold recordMembership
  cases hm : cachedMembership plat pdu with
  | join => exact ⟨true, StateCache.markAsJoined_joined, ⟨fun _ => rfl, by simp⟩, by simp⟩
  | invite =>
    rw [Prog.run_read_bind]
    by_cases hj : c.userroomidJoined u room = true
    · rw [if_pos hj]
      exact ⟨c.roomuseridJoined room u, .same ha, ⟨by simp, by simp⟩, .inl⟩
    · rw [if_neg hj]
      exact ⟨false, StateCache.markAsInvited_joined _ _, ⟨by simp, by simp⟩, by simp⟩
  | knock =>
    rw [Prog.run_read_bind]
    by_cases hc : hasCreate (knockState (env.summaryStripped pdu) (c.userroomidKnockedstate u room)) = true
    · rw [if_pos hc]
      exact ⟨false, StateCache.markAsKnocked_joined _, ⟨by simp, by simp⟩, by simp⟩
    · rw [if_neg hc]
      exact ⟨c.roomuseridJoined room u, .same ha, ⟨by simp, by simp⟩, .inl⟩
  | leave => exact ⟨false, StateCache.markAsLeft_joined _ _, ⟨by simp, by simp⟩, by simp⟩
  | ban => exact ⟨false, StateCache.markAsLeft_joined _ _, ⟨by simp, by simp⟩, by simp⟩
  | custom name => exact ⟨false, StateCache.markAsLeft_joined _ _, ⟨by simp, by simp⟩, by simp⟩

theorem MatchesBut.set {fetch : EventId → Option Pdu} {was : UserId → Bool} {root : Root} {rest : List UserId}
    {c' : StateCache} {b : Bool} (h : MatchesBut plat fetch room was root (u :: rest) c)
    (hset : StateCache.SetsJoined u room b c c') (hb : Matches (memberIn plat fetch root u) b)
    (he : b = true → was u = true ∨ memberIn plat fetch root u = some .join) :
    MatchesBut plat fetch room was root rest c' := by
  obtain ⟨hr, hu⟩ := hset
  refine ⟨fun x => ?_, fun x hx => ?_, fun x hx hrest => ?_⟩
  · rw [hr, hu, setEntry_apply, setEntry_apply]
    by_cases hxu : x = u
    · simp [hxu]
    · simpa [hxu] using h.agree x
  · rw [hr, setEntry_apply]
    by_cases hxu : x = u
    · subst hxu
      simpa using he
    · simpa [hxu] using h.enters x hx
  · rw [hr, setEntry_apply]
    by_cases hxu : x = u
    · subst hxu
      simpa using hb
    · simpa [hxu] using h.matching x hx (by simp [hxu, hrest])

end

/-! ## The difference between two states -/

section
variable {plat : Platform} {fetch view : EventId → Option Pdu} {old new : Root} {u : UserId}
  {id : EventId} {pdu : Pdu}

theorem lookup_of_added (h : id ∈ old.added new) : ∃ k, new.lookup k = some id := by
  obtain ⟨e, he, rfl⟩ := List.mem_map.mp h
  exact ⟨e.1, AList.mem_lookup_iff.mpr (List.mem_filter.mp he).1⟩

theorem added_of_ne (hn : new.lookup (.roomMember, u) = some id) (ho : old.lookup (.roomMember, u) ≠ some id) :
    id ∈ old.added new := by
  refine List.mem_map.mpr ⟨⟨(.roomMember, u), id⟩, List.mem_filter.mpr ⟨AList.mem_lookup_iff.mp hn, ?_⟩, rfl⟩
  simp [tracked, ho]

section
variable (hparse : ∀ k u, plat.codec.parseUserId k = some u → u = k)
include hparse

theorem memberUser_isUser (hu : memberUser plat pdu = some u) : IsUser plat u := by
  unfold memberUser at hu
  split at hu
  · obtain ⟨k, -, hk⟩ := Option.bind_eq_some_iff.mp hu
    have huk := hparse k u hk
    subst huk
    exact hk
  · cases hu

theorem memberUser_filed (hf : Filed fetch view new) (hp : pdu ∈ (old.added new).filterMap view)
    (hu : memberUser plat pdu = some u) :
    ∃ id, new.lookup (.roomMember, u) = some id ∧ fetch id = some pdu := by
  obtain ⟨id, hid, hv⟩ := List.mem_filterMap.mp hp
  obtain ⟨k, hk⟩ := lookup_of_added hid
  obtain ⟨hkind, hkey⟩ := hf.keys k id pdu hk hv
  unfold memberUser at hu
  split at hu
  · rename_i hmember
    rw [hkey, Option.bind_some] at hu
    have huk := hparse _ _ hu
    have hk' : k = (.roomMember, u) := Prod.ext (hkind.symm.trans hmember) huk.symm
    subst hk'
    exact ⟨id, hk, (hf.members u id hk).1.symm.trans hv⟩
  · cases hu

end

theorem memberUser_added (hu : IsUser plat u) (hf : Filed fetch view new)
    (hn : new.lookup (.roomMember, u) = some id)
    (ho : old.lookup (.roomMember, u) ≠ some id) :
    u ∈ ((old.added new).filterMap view).filterMap (memberUser plat) := by
  obtain ⟨hv, hs⟩ := hf.members u id hn
  obtain ⟨pdu, hpdu⟩ := Option.isSome_iff_exists.mp hs
  have hview : view id = some pdu := hv.trans hpdu
  obtain ⟨hkind, hkey⟩ := hf.keys _ id pdu hn hview
  refine List.mem_filterMap.mpr ⟨pdu, List.mem_filterMap.mpr ⟨id, added_of_ne hn ho, hview⟩, ?_⟩
  unfold memberUser
  rw [if_pos hkind, hkey]
  exact hu

theorem usersToMarkLeft_none {removed : List Pdu} (hu : u ∈ Ledger.usersToMarkLeft plat new removed) :
    memberIn plat fetch new u = none := by
  have hnone : (new.lookup (.roomMember, u)).isNone = true := (List.mem_filter.mp hu).2
  unfold memberIn
  rw [Option.isNone_iff_eq_none.mp hnone]
  rfl

theorem lookup_same (hu : IsUser plat u) (hold : Filed fetch view old) (hnew : Filed fetch view new)
    (ha : u ∉ ((old.added new).filterMap view).filterMap (memberUser plat))
    (hl : u ∉ Ledger.usersToMarkLeft plat new ((new.added old).filterMap view)) :
    old.lookup (.roomMember, u) = new.lookup (.roomMember, u) := by
  cases hn : new.lookup (.roomMember, u) with
  | some id =>
    by_contra ho
    exact ha (memberUser_added hu hnew hn ho)
  | none =>
    cases ho : old.lookup (.roomMember, u) with
    | none => rfl
    | some id =>
      refine absurd (List.mem_filter.mpr ⟨memberUser_added hu hold ho ?_, ?_⟩) hl
      · simp [hn]
      · simp [hn]

/-! ## One update of the tables -/

namespace Ledger

variable {env : Env} {room : RoomId} {was : UserId → Bool}

/-- Once the users whose member events are gone are marked as left, only those of added
events are left to do. -/
theorem markLeft_matches (removed : List Pdu) (rest : List UserId) :
    Triple (fun t => MatchesBut plat fetch room was new (usersToMarkLeft plat new removed ++ rest) t.cache)
      ((usersToMarkLeft plat new removed).foldlM
        (fun _ u => onCache (StateCache.markAsLeft u room none (env.forgets u))) ())
      (fun _ t => MatchesBut plat fetch room was new rest t.cache) fun _ => True := by
  have hnone : ∀ u ∈ usersToMarkLeft plat new removed, memberIn plat fetch new u = none :=
    fun u hu => usersToMarkLeft_none hu
  generalize usersToMarkLeft plat new removed = us at hnone
  refine (Triple.foldlM (J := fun (us : List UserId) (t : Ledger) => (∀ u ∈ us, memberIn plat fetch new u = none) ∧
    MatchesBut plat fetch room was new (us ++ rest) t.cache) us fun u us => ?_).mono (fun t h => ⟨hnone, h⟩)
    (fun _ t h => h.2) fun _ h => h
  refine onCache_triple fun t ⟨hn, hm⟩ => ⟨fun x hx => hn x (by simp [hx]), ?_⟩
  refine MatchesBut.set hm (StateCache.markAsLeft_joined _ _) ?_ (by simp)
  rw [hn u (by simp)]
  exact ⟨by simp, by simp⟩

theorem applyAdded_matches (hparse : ∀ k u, plat.codec.parseUserId k = some u → u = k) (hnew : Filed fetch view new)
    (pass : CachePass) :
    Triple (fun t => MatchesBut plat fetch room was new
      (((old.added new).filterMap view).filterMap (memberUser plat))
        t.cache)
      (((old.added new).filterMap view).foldlM (applyAdded plat env pass room) ())
      (fun _ t => MatchesBut plat fetch room was new [] t.cache) fun _ => True := by
  have hmember : ∀ pdu ∈ (old.added new).filterMap view, ∀ u, memberUser plat pdu = some u →
      memberIn plat fetch new u = some (cachedMembership plat pdu) := by
    intro pdu hp u hu
    obtain ⟨id, hl, hf⟩ := memberUser_filed hparse hnew hp hu
    unfold memberIn
    rw [hl, Option.bind_some, hf]
    rfl
  generalize (old.added new).filterMap view = pdus at hmember
  refine (Triple.foldlM (J := fun (pdus : List Pdu) (t : Ledger) =>
    (∀ pdu ∈ pdus, ∀ u, memberUser plat pdu = some u →
      memberIn plat fetch new u = some (cachedMembership plat pdu)) ∧
    MatchesBut plat fetch room was new (pdus.filterMap (memberUser plat)) t.cache) pdus fun pdu pdus => ?_).mono
    (fun t h => ⟨hmember, h⟩) (fun _ t h => h.2) fun _ h => h
  unfold applyAdded
  cases hu : memberUser plat pdu with
  | none =>
    refine Triple.pure () fun t ⟨hm, ht⟩ => ⟨fun x hx => hm x (by simp [hx]), ?_⟩
    simpa only [List.filterMap_cons, hu] using ht
  | some u =>
    refine (fallible_leaves _).mono (fun _ h => h) (fun _ _ h => h) (fun _ _ => trivial) |>.bind fun _ => ?_
    refine onCache_triple fun t ⟨hm, ht⟩ => ⟨fun x hx => hm x (by simp [hx]), ?_⟩
    simp only [List.filterMap_cons, hu] at ht
    have hmem := hm pdu (by simp) u hu
    obtain ⟨b, hset, hb, he⟩ := recordMembership_joined plat env u pdu ht.agree
    refine ht.set hset (by rwa [hmem]) fun hbt => ?_
    rcases he hbt with hj | hj
    · exact ht.enters u (memberUser_isUser hparse hu) hj
    · exact .inr (by rw [hmem, hj])

/-- The table before an update: it matches the new state for the users that the update
does not concern. -/
structure Pending (plat : Platform) (fetch : EventId → Option Pdu) (room : RoomId) (was : UserId → Bool)
    (old new : Root) (c : StateCache) : Prop where
  agree : JoinedAgree room c
  enters : ∀ u, IsUser plat u → c.roomuseridJoined room u = true → was u = true ∨
    memberIn plat fetch new u = some .join
  same : ∀ u, IsUser plat u → old.lookup (.roomMember, u) = new.lookup (.roomMember, u) →
    Matches (memberIn plat fetch new u) (c.roomuseridJoined room u)

theorem updateCaches_matches (hparse : ∀ k u, plat.codec.parseUserId k = some u → u = k)
    (hold : Filed fetch view old)
    (hnew : Filed fetch view new) (pass : CachePass) :
    Triple (fun t => t.server.getPduInRoom plat room = view ∧ Pending plat fetch room was old new t.cache)
      (updateCachesForStateDeltaBetween plat env pass room (some old) new)
      (fun _ t => MatchesBut plat fetch room was new [] t.cache) fun _ => True := by
  unfold updateCachesForStateDeltaBetween
  refine ((fallible_leaves _).mono (fun _ h => h) (fun _ _ h => h) fun _ _ => trivial).bind fun _ => ?_
  simp only [onServer_read, Option.getD_some]
  refine Triple.read_bind (a := (old.added new).filterMap view) (fun t h => by rw [h.1]) ?_
  refine Triple.read_bind (a := (new.added old).filterMap view) (fun t h => by rw [h.1]) ?_
  unfold updateCachesForStateDelta
  refine ((markLeft_matches _ _).mono (fun t h => ?_) (fun _ _ h => h) fun _ h => h).bind fun _ =>
    applyAdded_matches hparse hnew pass
  refine ⟨h.2.agree, h.2.enters, fun u hu hrest => h.2.same u hu ?_⟩
  rw [List.mem_append, not_or] at hrest
  exact lookup_same hu hold hnew hrest.2 hrest.1

end Ledger

end

/-! ## The steps of an accepted event -/

def storedPdu (plat : Platform) (room : RoomId) (id : EventId) (json : Object) : Option Pdu :=
  ((plat.decodePdu json).toOption.map fun pdu => { pdu with eventId := id }).filter fun pdu =>
    pdu.roomIdOrHash plat.codec = some room

theorem getPduInRoom_eq (plat : Platform) (s : Server) (room : RoomId) (id : EventId) :
    s.getPduInRoom plat room id = (s.eventidPdu id).bind (storedPdu plat room id) := by
  unfold Server.getPduInRoom Server.getPdu storedPdu
  cases s.eventidPdu id <;> rfl

namespace Ledger

def current (t : Ledger) (room : RoomId) : Root := (t.server.roomRoot room).getD ∅

/-- Between two steps: the events are stored as they were, the room has a state, and the
tables satisfy a condition. -/
structure Phase (plat : Platform) (room : RoomId) (view : EventId → Option Pdu) (root : Root)
    (C : StateCache → Prop)
    (t : Ledger) : Prop where
  stored : t.server.getPduInRoom plat room = view
  state : t.current room = root
  tables : C t.cache

section
variable {plat : Platform} {env : Env} {room : RoomId} {view : EventId → Option Pdu} {root : Root}
  {C : StateCache → Prop} {a : Append}

theorem modify_phase {f : Server → Server} {root' : Root} (he : ∀ s, (f s).eventidPdu = s.eventidPdu)
    (hr : ∀ s, (s.roomRoot room).getD ∅ = root → ((f s).roomRoot room).getD ∅ = root') :
    Triple (Phase plat room view root C) (onServer (Call.modify f))
      (fun _ => Phase plat room view root' C) fun _ => True := by
  rw [onServer_modify]
  refine Triple.modify fun t ht => ⟨?_, hr t.server ht.state, ht.tables⟩
  rw [← ht.stored]
  funext id
  rw [getPduInRoom_eq, getPduInRoom_eq, he]

theorem fallible_phase (f : Fallible) :
    Triple (Phase plat room view root C) (fallible env f) (fun _ => Phase plat room view root C) fun _ => True :=
  (fallible_leaves f).mono (fun _ h => h) (fun _ _ h => h) fun _ _ => trivial

theorem insertPdu_phase {pdu : Pdu} {json : Object} (hj : storedPdu plat room pdu.eventId json = view pdu.eventId) :
    Triple (Phase plat room view root C) (insertPdu env room pdu json) (fun _ => Phase plat room view root C)
      fun _ => True := by
  unfold insertPdu
  refine (Triple.read (Q := fun _ => Phase plat room view root C) fun _ h => h).bind fun existing => ?_
  split
  · exact Triple.pure _ fun _ h => h
  · refine (fallible_phase _).bind fun _ t ht => ⟨fun n t' hp => ?_, fun _ _ _ => trivial⟩
    cases hp
    refine ⟨funext fun id => ?_, ht.state, ht.tables⟩
    rw [getPduInRoom_eq]
    show ((Function.update t.server.eventidPdu pdu.eventId (some json)) id).bind (storedPdu plat room id) = view id
    by_cases hid : id = pdu.eventId
    · subst hid
      simpa using hj
    · rw [Function.update_of_ne hid, ← getPduInRoom_eq, ht.stored]

theorem setEventStateWithRoot_phase {pdu : Pdu} {new : Root} {prevRoot : Option Root}
    (hpass : pdu.stateKey.isSome = true → prevRoot.isSome = true →
      Triple (Phase plat room view new C) (updateCachesForStateDeltaBetween plat env .withRoot room prevRoot new)
        (fun _ => Phase plat room view new C) fun _ => True) :
    Triple (Phase plat room view root C) (setEventStateWithRoot plat env room pdu new prevRoot)
      (fun _ => Phase plat room view (if pdu.stateKey.isSome then new else root) C) fun _ => True := by
  unfold setEventStateWithRoot
  refine (fallible_phase _).bind fun _ => ?_
  refine Triple.bind (Q := fun _ => Phase plat room view (if pdu.stateKey.isSome then new else root) C)
    (modify_phase (fun _ => rfl) fun s hs => ?_) fun _ => ?_
  · cases hk : pdu.stateKey.isSome with
    | true => simp [Server.storeRoot]
    | false => simpa [Server.storeRoot] using hs
  · by_cases hcond : (pdu.stateKey.isSome && prevRoot.isSome) = true
    · rw [if_pos hcond]
      rw [Bool.and_eq_true] at hcond
      simpa only [hcond.1, ↓reduceIte] using hpass hcond.1 hcond.2
    · rw [if_neg hcond]
      exact Triple.pure _ fun _ h => h

theorem advanceState_phase : Triple (Phase plat a.room view root C) (advanceState env a)
    (fun _ => Phase plat a.room view (if a.advanceCurrentState && a.pdu.stateKey.isNone then a.root else root) C)
    fun _ => True := by
  unfold advanceState
  split
  · refine (fallible_phase _).bind fun _ => modify_phase (fun _ => rfl) fun s _ => ?_
    simp [Server.storeRoomRoot]
  · exact Triple.pure _ fun _ h => h

def after (a : Append) (root : Root) : Root :=
  if a.pdu.stateKey.isSome || a.advanceCurrentState then a.root else root

theorem appendPdu_phase (leaves : List EventId)
    (hj : ∀ prev, storedPdu plat a.room a.pdu.eventId (withPrevState a.pdu prev a.json) = view a.pdu.eventId)
    (hpass : a.pdu.stateKey.isSome = true → a.prevRoot.isSome = true →
      Triple (Phase plat a.room view a.root C)
        (updateCachesForStateDeltaBetween plat env .withRoot a.room a.prevRoot a.root)
        (fun _ => Phase plat a.room view a.root C) fun _ => True) :
    Triple (Phase plat a.room view root C) (appendPdu plat env a leaves)
      (fun _ => Phase plat a.room view (after a root) C) fun _ => True := by
  have hafter : (if a.advanceCurrentState && a.pdu.stateKey.isNone then a.root
      else if a.pdu.stateKey.isSome then a.root else root) = after a root := by
    unfold after
    cases a.advanceCurrentState <;> cases a.pdu.stateKey <;> rfl
  unfold appendPdu
  refine (fallible_phase _).bind fun _ => ?_
  rw [onServer_read]
  refine (Triple.read (Q := fun _ => Phase plat a.room view root C) fun _ h => h).bind fun prev => ?_
  refine ((Triple.refuse _ fun _ _ _ => trivial).mono (fun _ h => h) (fun _ _ h => h.1) fun _ h => h).bind fun _ =>
    ?_
  refine Triple.bind (modify_phase (fun _ => rfl) fun _ h => h) fun _ => (fallible_phase _).bind fun _ => ?_
  refine Triple.bind (modify_phase (fun _ => rfl) fun _ h => h) fun _ => ?_
  refine (insertPdu_phase (hj prev)).bind fun position => (setEventStateWithRoot_phase hpass).bind fun _ => ?_
  refine advanceState_phase.bind fun _ => (fallible_phase _).bind fun _ => (fallible_phase _).bind fun _ => ?_
  rw [hafter]
  exact Triple.bind (modify_phase (fun _ => rfl) fun _ h => h) fun _ => Triple.pure _ fun _ h => h

theorem accept_phase {d : Delivery} {recovered : Bool} {st : Settled} {C' : StateCache → Prop}
    (hj : ∀ prev, storedPdu plat room d.id (withPrevState d.pdu prev d.json) = view d.id)
    (hprepare : Triple (Phase plat room view root C) (prepareCaches plat env room d recovered st)
      (fun _ => Phase plat room view root C') fun _ => True)
    (hpass : d.pdu.stateKey.isSome = true → st.prevRoot.isSome = true →
      Triple (Phase plat room view st.root C') (updateCachesForStateDeltaBetween plat env .withRoot room
        st.prevRoot st.root)
        (fun _ => Phase plat room view st.root C') fun _ => True) :
    Triple (Phase plat room view root C) (accept plat env room d recovered st)
      (fun _ => Phase plat room view (after (d.toAppend room recovered st) root) C') fun _ => True := by
  unfold accept
  refine hprepare.bind fun _ => Triple.bind (Q := fun _ => Phase plat room view _ C') ?_ fun _ =>
    Triple.pure _ fun _ h => h
  unfold appendIncomingPdu
  simp only [Bool.false_eq_true, ↓reduceIte]
  refine Triple.bind (appendPdu_phase (a := d.toAppend room recovered st) _ hj hpass) fun position => ?_
  refine Triple.bind (modify_phase (fun _ => rfl) fun _ h => h) fun _ => (fallible_phase _).bind fun _ => ?_
  refine Triple.bind (modify_phase (fun _ => rfl) fun _ h => h) fun _ => (fallible_phase _).bind fun _ => ?_
  exact Triple.pure _ fun _ h => h

theorem updateCaches_phase {fetch : EventId → Option Pdu} {was : UserId → Bool} {old new : Root}
    (hparse : ∀ k u, plat.codec.parseUserId k = some u → u = k) (hold : Filed fetch view old)
    (hnew : Filed fetch view new) (pass : CachePass) :
    Triple (Phase plat room view root (Pending plat fetch room was old new))
      (updateCachesForStateDeltaBetween plat env pass room (some old) new)
      (fun _ => Phase plat room view root (MatchesBut plat fetch room was new [])) fun _ => True := by
  have hserver : Leaves (fun t => t.server.getPduInRoom plat room = view ∧ (t.server.roomRoot room).getD ∅ = root)
      (updateCachesForStateDeltaBetween plat env pass room (some old) new) :=
    caches_leave (P := fun s => s.getPduInRoom plat room = view ∧ (s.roomRoot room).getD ∅ = root) pass
      (some old) new
  refine (hserver.and (updateCaches_matches hparse hold hnew pass)).mono
    (fun t h => ⟨⟨h.stored, h.state⟩, h.stored, h.tables⟩)
    (fun _ t h => ⟨h.1.1, h.1.2, h.2⟩) fun _ _ => trivial

end

end Ledger

/-! ## Runs -/

/-- Whether the room's state is set to the one the event is accepted with. -/
def Delivery.installs (d : Delivery) (recovered : Bool) : Bool :=
  d.pdu.stateKey.isSome || (d.isTimelineEvent && recovered)

/-- A step that may change the state of a room, or another write of the handlers. -/
inductive StateAction where
  | deliver (env : Env) (d : Delivery)
  | force (env : Env) (root : Root)
  | write (w : Write)

def Ledger.stateStep (plat : Platform) (room : RoomId) : StateAction → Ledger → Option Ledger
  | .deliver env d, t => some ((upgradeOutlierToTimelinePdu plat env room d).exec t).2
  | .force env root, t => some ((forceState plat env room root).exec t).2
  | .write w, t => if w.quiet then some { t with server := w.apply plat t.server } else none

section
variable (plat : Platform) (fetch : EventId → Option Pdu) (room : RoomId)

/-- An event is accepted with its state and the one before it. It is stored as it is
appended, and the members of the state before it are those of the room's. -/
structure Based (d : Delivery) (recovered : Bool) (st : Settled) (t : Ledger) : Prop where
  stored : ∀ prev, storedPdu plat room d.id (withPrevState d.pdu prev d.json) = t.server.getPduInRoom plat room d.id
  before : d.installs recovered = true → ∃ prev, st.prevRoot = some prev ∧
    Filed fetch (t.server.getPduInRoom plat room) prev ∧ Filed fetch (t.server.getPduInRoom plat room) st.root ∧
    ∀ u, prev.lookup (.roomMember, u) = (t.current room).lookup (.roomMember, u)

/-- The step completes, all member events are stored, and differences are taken from the
room's current members. -/
def FromCurrent : StateAction → Ledger → Prop
  | .deliver env d, t => ∀ j st s₁ s₂, (d.judge plat room).exec t.server = (.ok (.inr j), s₁) →
      (d.settle plat room j).exec s₁ = (.ok (.inr st), s₂) → st.softFail = false →
      Based plat fetch room d j.recovered st { t with server := s₂ } ∧
        ((Ledger.accept plat env room d j.recovered st).exec { t with server := s₂ }).1.isOk
  | .force env root, t => Filed fetch (t.server.getPduInRoom plat room) root ∧
      Filed fetch (t.server.getPduInRoom plat room) (t.current room) ∧
      ((Ledger.forceState plat env room root).exec t).1.isOk
  | .write _, _ => True

/-- The table of joined members matches the room's state. -/
structure JoinedMatches (t : Ledger) : Prop where
  agree : JoinedAgree room t.cache
  matching : ∀ u, IsUser plat u → Matches (memberIn plat fetch (t.current room) u) (t.cache.roomuseridJoined room u)

end

section
variable {plat : Platform} {fetch : EventId → Option Pdu} {room : RoomId} {t t' : Ledger} {env : Env} {d : Delivery}
  {st : Settled}

theorem of_completed {A : Type} {p : L A} {P : Ledger → Prop} {Q : Ledger → Prop}
    (h : Triple P p (fun _ => Q) fun _ => True) (ht : P t) (hc : (p.exec t).1.isOk) : Q (p.exec t).2 := by
  rcases hp : p.exec t with ⟨r, t₁⟩
  rw [hp] at hc
  cases r with
  | ok a => exact (h t ht).1 a t₁ hp
  | error e => cases hc

theorem JoinedMatches.pending {old new : Root} (h : JoinedMatches plat fetch room t)
    (hold : ∀ u, old.lookup (.roomMember, u) = (t.current room).lookup (.roomMember, u)) :
    Ledger.Pending plat fetch room (t.cache.roomuseridJoined room) old new t.cache := by
  refine ⟨h.agree, fun _ _ hj => .inl hj, fun u hu hsame => ?_⟩
  have hmember : memberIn plat fetch new u = memberIn plat fetch (t.current room) u := by
    unfold memberIn
    rw [← hsame, hold u]
  rw [hmember]
  exact h.matching u hu

theorem MatchesBut.pending {was : UserId → Bool} {old new : Root} {c : StateCache}
    (h : MatchesBut plat fetch room was new [] c) : Ledger.Pending plat fetch room was old new c :=
  ⟨h.agree, h.enters, fun u hu _ => h.matching u hu (by simp)⟩

theorem JoinedMatches.same (h : JoinedMatches plat fetch room t) :
    MatchesBut plat fetch room (t.cache.roomuseridJoined room) (t.current room) [] t.cache :=
  ⟨h.agree, fun _ _ hj => .inl hj, fun u hu _ => h.matching u hu⟩

theorem settle_historical {j : Judged} {s s' : Server} (h : (d.settle plat room j).exec s = (.ok (.inr st), s'))
    (hi : d.installs j.recovered = false) : st.prevRoot = none := by
  unfold Delivery.settle at h
  rw [exec_read] at h
  split at h
  · cases h
  · obtain ⟨failed, s₁, h₁, h⟩ := Call.exec_bind_ok h
    obtain ⟨⟨prevRoot, root⟩, s₂, h₂, h⟩ := Call.exec_bind_ok h
    obtain ⟨softFail, s₃, h₃, h⟩ := Call.exec_bind_ok h
    rw [exec_read] at h
    cases h
    unfold Delivery.installs at hi
    rw [Bool.or_eq_false_iff] at hi
    have hkey : d.pdu.stateKey = none := Option.not_isSome_iff_eq_none.mp (by simp [hi.1])
    unfold newRoomState at h₂
    simp only [hkey, hi.2, Bool.false_eq_true, ↓reduceIte] at h₂
    split at h₂
    · rw [exec_read] at h₂
      cases h₂
      rfl
    · cases h₂
      rfl

theorem after_toAppend (recovered : Bool) (root : Root) :
    Ledger.after (d.toAppend room recovered st) root = if d.installs recovered then st.root else root := by
  unfold Ledger.after Delivery.toAppend Delivery.installs
  cases d.pdu.stateKey.isSome <;> simp

section
variable (hparse : ∀ k u, plat.codec.parseUserId k = some u → u = k)
include hparse

theorem accept_matches (h : JoinedMatches plat fetch room t) {recovered : Bool}
    (hb : Based plat fetch room d recovered st t) (hn : d.installs recovered = false → st.prevRoot = none)
    (hok : ((Ledger.accept plat env room d recovered st).exec t).1.isOk) :
    let t' := ((Ledger.accept plat env room d recovered st).exec t).2
    MatchesBut plat fetch room (t.cache.roomuseridJoined room) (t'.current room) [] t'.cache := by
  intro t'
  cases hi : d.installs recovered with
  | false =>
    have hnone := hn hi
    have hprepare : Triple
        (Ledger.Phase plat room (t.server.getPduInRoom plat room) (t.current room)
          (MatchesBut plat fetch room (t.cache.roomuseridJoined room) (t.current room) []))
        (Ledger.prepareCaches plat env room d recovered st)
        (fun _ => Ledger.Phase plat room (t.server.getPduInRoom plat room) (t.current room)
          (MatchesBut plat fetch room (t.cache.roomuseridJoined room) (t.current room) [])) fun _ => True := by
      unfold Ledger.prepareCaches
      rw [if_neg (by simp [hnone])]
      exact Triple.pure () fun _ h => h
    have hphase := of_completed (Ledger.accept_phase hb.stored hprepare (by simp [hnone])) ⟨rfl, rfl, h.same⟩ hok
    rw [after_toAppend, hi] at hphase
    rw [hphase.state]
    exact hphase.tables
  | true =>
    obtain ⟨prev, hprev, hold, hnew, hcurrent⟩ := hb.before hi
    have hprepare : Triple
        (Ledger.Phase plat room (t.server.getPduInRoom plat room) (t.current room)
          (Ledger.Pending plat fetch room (t.cache.roomuseridJoined room) prev st.root))
        (Ledger.prepareCaches plat env room d recovered st)
        (fun _ => Ledger.Phase plat room (t.server.getPduInRoom plat room) (t.current room)
          (MatchesBut plat fetch room (t.cache.roomuseridJoined room) st.root [])) fun _ => True := by
      have hcond : ((d.pdu.stateKey.isSome || recovered) && st.prevRoot.isSome) = true := by
        unfold Delivery.installs at hi
        cases hk : d.pdu.stateKey.isSome with
        | true => simp [hprev]
        | false =>
          simp only [hk, Bool.false_or, Bool.and_eq_true] at hi
          simp [hi.2, hprev]
      unfold Ledger.prepareCaches
      rw [if_pos hcond, hprev]
      exact (Ledger.fallible_phase _).bind fun _ => Ledger.updateCaches_phase hparse hold hnew _
    have hpass : Triple
        (Ledger.Phase plat room (t.server.getPduInRoom plat room) st.root
          (MatchesBut plat fetch room (t.cache.roomuseridJoined room) st.root []))
        (Ledger.updateCachesForStateDeltaBetween plat env .withRoot room st.prevRoot st.root)
        (fun _ => Ledger.Phase plat room (t.server.getPduInRoom plat room) st.root
          (MatchesBut plat fetch room (t.cache.roomuseridJoined room) st.root [])) fun _ => True := by
      rw [hprev]
      exact (Ledger.updateCaches_phase hparse hold hnew _).mono
        (fun t ht => ⟨ht.stored, ht.state, ht.tables.pending⟩)
        (fun _ _ h => h) fun _ h => h
    have hphase := of_completed (Ledger.accept_phase hb.stored hprepare fun _ _ => hpass)
      ⟨rfl, rfl, h.pending hcurrent⟩ hok
    rw [after_toAppend, hi] at hphase
    rw [hphase.state]
    exact hphase.tables

theorem force_matches (h : JoinedMatches plat fetch room t) {root : Root}
    (hnew : Filed fetch (t.server.getPduInRoom plat room) root)
    (hold : Filed fetch (t.server.getPduInRoom plat room) (t.current room))
    (hok : ((Ledger.forceState plat env room root).exec t).1.isOk) :
    let t' := ((Ledger.forceState plat env room root).exec t).2
    MatchesBut plat fetch room (t.cache.roomuseridJoined room) (t'.current room) [] t'.cache := by
  intro t'
  have hfrom : ∀ pass, Ledger.updateCachesForStateDeltaBetween plat env pass room (t.server.roomRoot room) root =
      Ledger.updateCachesForStateDeltaBetween plat env pass room (some (t.current room)) root := fun _ => rfl
  have hforce : Triple
      (fun t₁ => t₁.server.roomRoot room = t.server.roomRoot room ∧
        Ledger.Phase plat room (t.server.getPduInRoom plat room) (t.current room)
          (Ledger.Pending plat fetch room (t.cache.roomuseridJoined room) (t.current room) root) t₁)
      (Ledger.forceState plat env room root)
      (fun _ => Ledger.Phase plat room (t.server.getPduInRoom plat room) root
        (MatchesBut plat fetch room (t.cache.roomuseridJoined room) root [])) fun _ => True := by
    unfold Ledger.forceState
    rw [Ledger.onServer_read]
    refine Triple.read_bind (fun t₁ h₁ => h₁.1) ?_
    rw [hfrom]
    refine ((Ledger.updateCaches_phase hparse hold hnew _).mono (fun _ h₁ => h₁.2) (fun _ _ h => h)
      fun _ h => h).bind fun _ => (Ledger.fallible_phase _).bind fun _ => ?_
    exact Ledger.modify_phase (fun _ => rfl) fun s _ => by simp [Server.storeRoomRoot]
  have hphase := of_completed hforce ⟨rfl, rfl, rfl, h.pending fun _ => rfl⟩ hok
  rw [hphase.state]
  exact hphase.tables

/-- The room's state and the tables are as they were. -/
structure Still (t t' : Ledger) : Prop where
  roomRoot : t'.server.roomRoot = t.server.roomRoot
  cache : t'.cache = t.cache

omit hparse in
theorem JoinedMatches.still (h : JoinedMatches plat fetch room t) (hs : Still t t') :
    MatchesBut plat fetch room (t.cache.roomuseridJoined room) (t'.current room) [] t'.cache := by
  have hcurrent : t'.current room = t.current room := by
    unfold Ledger.current
    rw [hs.roomRoot]
  rw [hcurrent, hs.cache]
  exact h.same

omit hparse in
theorem MatchesBut.joinedMatches {was : UserId → Bool}
    (h : MatchesBut plat fetch room was (t.current room) [] t.cache) :
    JoinedMatches plat fetch room t :=
  ⟨h.agree, fun u hu => h.matching u hu (by simp)⟩

omit hparse in
theorem exec_onServer_ok {A B : Type} {p : H A} {k : A → L B} {a : A} {s : Server}
    (h : p.exec t.server = (.ok a, s)) : (Ledger.onServer p >>= k).exec t = (k a).exec { t with server := s } := by
  rw [Call.exec_bind, Ledger.onServer, Call.exec_zoom]
  rw [show p.exec (Ledger.serverPart.get t) = (.ok a, s) from h]
  rfl

omit hparse in
theorem exec_onServer_error {A B : Type} {p : H A} {k : A → L B} {e : HErr} {s : Server}
    (h : p.exec t.server = (.error e, s)) : (Ledger.onServer p >>= k).exec t =
      (.error e, { t with server := s }) := by
  rw [Call.exec_bind, Ledger.onServer, Call.exec_zoom]
  rw [show p.exec (Ledger.serverPart.get t) = (.error e, s) from h]
  rfl

omit hparse in
theorem Unmoved.still {s : Server} (h : Unmoved t.server s) : Still t { t with server := s } := ⟨h.roomRoot, rfl⟩

omit hparse in
theorem softFail_still (recovered : Bool) :
    Leaves (Still t) (Ledger.softFail plat env room d recovered st) :=
  Leaves.of_keeps Still (fun _ => Ledger.softFail_keeps (fun _ _ h => ⟨h.roomRoot, rfl⟩) _ _)
    fun _ _ h h₀ => ⟨h.roomRoot.trans h₀.roomRoot, h.cache.trans h₀.cache⟩

omit hparse in
variable (plat room) in
/-- A delivery leaves the tables alone, unless its event is accepted. -/
theorem upgrade_cases (t : Ledger) (env : Env) (d : Delivery) :
    Still t ((Ledger.upgradeOutlierToTimelinePdu plat env room d).exec t).2 ∨
      ∃ j st s₁ s₂, (d.judge plat room).exec t.server = (.ok (.inr j), s₁) ∧
        (d.settle plat room j).exec s₁ = (.ok (.inr st), s₂) ∧ st.softFail = false ∧ Unmoved t.server s₂ ∧
        (Ledger.upgradeOutlierToTimelinePdu plat env room d).exec t =
          (Ledger.accept plat env room d j.recovered st).exec { t with server := s₂ } := by
  unfold Ledger.upgradeOutlierToTimelinePdu
  have hu₁ := Unmoved.of_path (judge_keeps plat room d t.server).solo.1
  rcases hj : (d.judge plat room).exec t.server with ⟨r, s₁⟩
  rw [hj] at hu₁
  match r, hj with
  | .error e, hj =>
    rw [exec_onServer_error hj]
    exact .inl hu₁.still
  | .ok (.inl n), hj =>
    rw [exec_onServer_ok hj]
    exact .inl hu₁.still
  | .ok (.inr j), hj =>
    rw [exec_onServer_ok hj]
    have hu₂ := hu₁.trans (Unmoved.of_path (settle_keeps plat room d j s₁).solo.1)
    rcases hs : (d.settle plat room j).exec s₁ with ⟨r, s₂⟩
    rw [hs] at hu₂
    match r, hs with
    | .error e, hs =>
      rw [exec_onServer_error (t := { t with server := s₁ }) hs]
      exact .inl hu₂.still
    | .ok (.inl n), hs =>
      rw [exec_onServer_ok (t := { t with server := s₁ }) hs]
      exact .inl hu₂.still
    | .ok (.inr st), hs =>
      rw [exec_onServer_ok (t := { t with server := s₁ }) hs]
      cases hsoft : st.softFail with
      | true =>
        have hcommit : Ledger.commit plat env room d j.recovered st = Ledger.softFail plat env
            room d j.recovered st :=
          if_pos hsoft
        have hstill : Still t ((Ledger.commit plat env room d j.recovered st).exec { t with server := s₂ }).2 := by
          rw [hcommit]
          exact (softFail_still j.recovered).state hu₂.still
        exact .inl hstill
      | false =>
        have hcommit : Ledger.commit plat env room d j.recovered st = Ledger.accept plat env
            room d j.recovered st :=
          if_neg (by simp [hsoft])
        exact .inr ⟨j, st, s₁, s₂, rfl, hs, hsoft, hu₂, congrArg (fun p => p.exec { t with server := s₂ }) hcommit⟩

theorem step_matches {a : StateAction} (h : JoinedMatches plat fetch room t) (hok : FromCurrent plat fetch room a t)
    (hs : t.stateStep plat room a = some t') :
    MatchesBut plat fetch room (t.cache.roomuseridJoined room) (t'.current room) [] t'.cache := by
  cases a with
  | deliver env d =>
    cases hs
    rcases upgrade_cases plat room t env d with hstill | ⟨j, st, s₁, s₂, hj, hst, hsoft, hu, hexec⟩
    · exact h.still hstill
    · obtain ⟨hb, hdone⟩ := hok j st s₁ s₂ hj hst hsoft
      rw [hexec]
      have h₂ : JoinedMatches plat fetch room { t with server := s₂ } := (h.still hu.still).joinedMatches
      exact accept_matches hparse h₂ hb (settle_historical hst) hdone
  | force env root =>
    cases hs
    obtain ⟨hnew, hold, hdone⟩ := hok
    exact force_matches hparse h hnew hold hdone
  | write w =>
    simp only [Ledger.stateStep] at hs
    split at hs
    · rename_i hq
      cases hs
      exact h.still (Unmoved.still (w.apply_unmoved hq))
    · cases hs

end

end

/-- In every run whose differences are taken from the room's current members, the table
of joined members holds all who joined and nobody without a join, an invite or a knock,
and only those who join enter it. -/
theorem joined_follows_state (plat : Platform) (hparse : ∀ k u, plat.codec.parseUserId k = some u → u = k)
    (fetch : EventId → Option Pdu) (room : RoomId) {t₀ t : Ledger} (h₀ : JoinedMatches plat fetch room t₀)
    (hrun : Reaches (fun a t => t.stateStep plat room a) (FromCurrent plat fetch room) t₀ t) :
    JoinedMatches plat fetch room t ∧
      ∀ a t', FromCurrent plat fetch room a t → t.stateStep plat room a = some t' →
        ∀ u, IsUser plat u → t'.cache.roomuseridJoined room u = true →
          t.cache.roomuseridJoined room u = true ∨ memberIn plat fetch (t'.current room) u = some .join := by
  have hmatches : JoinedMatches plat fetch room t :=
    Reaches.invariant h₀ (fun _ _ _ h hok hs => (step_matches hparse h hok hs).joinedMatches) hrun
  exact ⟨hmatches, fun a t' hok hs => (step_matches hparse hmatches hok hs).enters⟩

/-! ## A joined user who is invited -/

/-- The creator's room, with an invite of the creator and a join of another user stored. -/
def Ledger.withMembers : Ledger :=
  { Ledger.plain with
    server := { Server.withOutliers with
      eventidPdu := fun id => (List.lookup id
        [("$i", wireEvent "i" "m.room.member" "@v:b" (some "@u:b") [("membership", .str "invite")] ["$c"] ["$j"]),
          ("$k", wireEvent "k" "m.room.member" "@v:b" (some "@v:b") [("membership", .str "join")] ["$c"]
            ["$j"])]).or
        (Server.withOutliers.eventidPdu id) } }

def withMembersView (id : EventId) : Option Pdu := Ledger.withMembers.server.getPduInRoom .union "!r:a" id

def membersRoot : Root :=
  (((∅ : Root).insert (.roomCreate, "") "$c").insert (.roomMember, "@u:b") "$i").insert (.roomMember, "@v:b") "$k"

theorem filed_of_entries {view : EventId → Option Pdu} {root : Root}
    (h : ∀ e ∈ root.entries, (view e.2).any fun pdu => pdu.kind = e.1.1 ∧ pdu.stateKey = some e.1.2) :
    Filed view view root := by
  refine ⟨fun k id pdu hk hv => ?_, fun u id hk => ⟨rfl, ?_⟩⟩
  · have he := h ⟨k, id⟩ (AList.mem_lookup_iff.mp hk)
    simpa only [hv, Option.any_some, decide_eq_true_eq] using he
  · have he := h ⟨(.roomMember, u), id⟩ (AList.mem_lookup_iff.mp hk)
    cases hv : view id with
    | none => simp [hv] at he
    | some pdu => rfl

theorem union_parseUserId (k : String) (u : UserId) (h : Platform.union.codec.parseUserId k = some u) : u = k := by
  change (Codec.readUserId (.str k)).toOption = some u at h
  simp only [Codec.readUserId] at h
  split at h
  · cases h
    rfl
  · cases h

/-- The table holds exactly those who joined. -/
def JoinedExact (plat : Platform) (fetch : EventId → Option Pdu) (room : RoomId) (t : Ledger) : Prop :=
  JoinedAgree room t.cache ∧ ∀ u, IsUser plat u →
    (t.cache.roomuseridJoined room u = true ↔ memberIn plat fetch (t.current room) u = some .join)

theorem JoinedExact.joinedMatches {plat : Platform} {fetch : EventId → Option Pdu} {room : RoomId} {t : Ledger}
    (h : JoinedExact plat fetch room t) : JoinedMatches plat fetch room t :=
  ⟨h.1, fun u hu => ⟨(h.2 u hu).mpr, fun hj => .inl ((h.2 u hu).mp hj)⟩⟩

theorem withMembers_exact : JoinedExact .union withMembersView "!r:a" .withMembers := by
  refine ⟨fun u => ?_, fun u _ => ?_⟩
  · by_cases hu : u = "@u:b"
    · subst hu
      rfl
    · simp [Ledger.withMembers, Ledger.plain, StateCache.commitJoined,
        StateCache.setOther_joined, setEntry_apply, hu]
  · by_cases hu : u = "@u:b"
    · subst hu
      exact ⟨fun _ => by decide, fun _ => by decide⟩
    · have hroot : (Ledger.withMembers.current "!r:a").lookup (.roomMember, u) = none := by
        show AList.lookup (.roomMember, u) (((∅ : Root).insert (.roomCreate, "") "$c").insert
          (.roomMember, "@u:b") "$j")
          = none
        rw [AList.lookup_insert_ne (by simp [hu]), AList.lookup_insert_ne (by simp), AList.lookup_empty]
      have hout : Ledger.withMembers.cache.roomuseridJoined "!r:a" u = false := by
        simp [Ledger.withMembers, Ledger.plain, StateCache.commitJoined,
          StateCache.setOther_joined, setEntry_apply, hu]
      rw [hout]
      unfold memberIn
      rw [hroot]
      simp

theorem force_fromCurrent : FromCurrent .union withMembersView "!r:a"
    (.force .steady membersRoot) .withMembers := by
  refine ⟨filed_of_entries (by decide), filed_of_entries (by decide), by decide⟩

/-- The forced state: the user who joins enters the table. -/
theorem forced_join_enters :
    let t := ((Ledger.forceState .union .steady "!r:a" membersRoot).exec .withMembers).2
    JoinedMatches .union withMembersView "!r:a" t ∧ t.cache.roomuseridJoined "!r:a" "@v:b" = true := by
  intro t
  obtain ⟨hmatches, -⟩ := joined_follows_state .union union_parseUserId withMembersView "!r:a"
    withMembers_exact.joinedMatches (t := t) (.next (.force .steady membersRoot) .init force_fromCurrent rfl)
  exact ⟨hmatches, (hmatches.matching "@v:b" rfl).joins (by decide)⟩

-- The creator's join is not undone by the invite that the new state has.
theorem invited_user_stays_joined :
    ¬ ∀ (plat : Platform), (∀ k u, plat.codec.parseUserId k = some u → u = k) →
      ∀ (fetch : EventId → Option Pdu) (room : RoomId) (t₀ t : Ledger), JoinedExact plat fetch room t₀ →
        Reaches (fun a t => t.stateStep plat room a) (FromCurrent plat fetch room) t₀ t →
        JoinedExact plat fetch room t := by
  intro h
  have hexact := h .union union_parseUserId withMembersView "!r:a" .withMembers _ withMembers_exact
    (.next (.force .steady membersRoot) .init force_fromCurrent rfl)
  exact absurd ((hexact.2 "@u:b" rfl).mp (by decide)) (by decide)

end Congruent
