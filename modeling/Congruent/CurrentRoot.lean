import Congruent.JoinedTable

/-!
# The current state while predecessors are handled

Whether an event advances the room's state is decided twice: by the flags of the call,
and once more by the kind of the event when its root is published. A predecessor that
is a state event advances it.
-/

namespace Congruent

open H
open Call (Triple Leaves)

namespace Ledger

section
variable (plat : Platform) (env : Env) (room : RoomId) (d : Delivery) (recovered : Bool) (st : Settled)

def untilRoot : L (Option Pdu × Nat) := do
  prepareCaches plat env room d recovered st
  fallible env .shortRoomId
  let prev ← onServer (read fun s => s.prevState plat room d.pdu st.prevRoot)
  Call.refuse (prev.any fun p => p.content.asObject.isNone) (.database "Failed to convert prev_state content")
  onServer (Call.modify fun s => s.markAsReferenced room d.pdu.prevEvents)
  fallible env .forwardExtremities
  onServer (Call.modify fun s => s.storeTips plat room st.leaves d.id)
  let position ← insertPdu env room d.pdu (withPrevState d.pdu prev d.json)
  fallible env .publish
  pure (prev, position)

/-- The tables of joined members follow the published root of a state event. -/
def followRoot : L Unit :=
  if d.pdu.stateKey.isSome && st.prevRoot.isSome then
    updateCachesForStateDeltaBetween plat env .withRoot room st.prevRoot st.root
  else pure ()

/-- The publication of the root, and what is done after it. -/
def fromRoot (prev : Option Pdu) (position : Nat) : L (Option Nat × Bool) := do
  onServer (Call.modify fun s => s.storeRoot room d.id d.pdu.stateKey.isSome st.root)
  followRoot plat env room d st
  advanceState env (d.toAppend room recovered st)
  fallible env .readReceipt
  fallible env .effects
  onServer (Call.modify fun s => s.noteAppended (d.toAppend room recovered st) (withPrevState d.pdu prev d.json))
  onServer (Call.modify fun s => s.clearOutlierFlag d.id)
  fallible env .clearRejection
  onServer (Call.modify fun s => s.setRejection d.id none)
  fallible env .adminCommand
  pure (some position, recovered)

theorem accept_eq : accept plat env room d recovered st =
    untilRoot plat env room d recovered st >>= fun x => fromRoot plat env room d recovered st x.1 x.2 := by
  unfold accept appendIncomingPdu appendPdu setEventStateWithRoot untilRoot fromRoot followRoot
  simp only [Bool.false_eq_true, ↓reduceIte, bind_assoc, pure_bind]
  rfl

end

/-! ## What the steps leave -/

def CurrentIs (room : RoomId) (r : Option Root) (t : Ledger) : Prop := t.server.roomRoot room = r

section
variable {plat : Platform} {env : Env} {room : RoomId} {d : Delivery} {recovered : Bool}
  {st : Settled} {r : Option Root}

theorem modify_current {f : Server → Server} (h : ∀ s, (f s).roomRoot = s.roomRoot) :
    Leaves (CurrentIs room r) (onServer (Call.modify f)) := by
  rw [onServer_modify]
  intro t ht
  refine ⟨fun a t' hp => ?_, fun e t' hp => by cases hp⟩
  cases hp
  exact (congrFun (h t.server) room).trans ht

theorem storeRoot_current (id : EventId) (isState : Bool) (root : Root) {X : Ledger → Prop} :
    Triple (CurrentIs room r) (onServer (Call.modify fun s => s.storeRoot room id isState root))
      (fun _ => CurrentIs room (if isState then some root else r)) X := by
  rw [onServer_modify]
  apply Triple.modify
  intro t ht
  cases isState with
  | true => simp [CurrentIs, Server.storeRoot]
  | false => exact ht

theorem prepareCaches_current : Leaves (CurrentIs room r) (prepareCaches plat env room d recovered st) := by
  unfold prepareCaches
  split
  · apply Triple.bind (fallible_leaves _)
    intro _
    exact caches_leave (P := fun s => s.roomRoot room = r) _ _ _
  · exact Triple.pure _ fun _ h => h

theorem insertPdu_current (pdu : Pdu) (json : Object) : Leaves (CurrentIs room r)
    (insertPdu env room pdu json) := by
  unfold insertPdu
  apply Triple.bind (Triple.read (Q := fun _ => CurrentIs room r) fun _ h => h)
  intro existing
  split
  · exact Triple.pure _ fun _ h => h
  · apply Triple.bind (fallible_leaves _)
    intro _ t ht
    refine ⟨fun n t' hp => ?_, fun e t' hp => by cases hp⟩
    cases hp
    exact ht

variable (plat env d recovered st) in
theorem untilRoot_current : Leaves (CurrentIs room r) (untilRoot plat env room d recovered st) := by
  unfold untilRoot
  apply Triple.bind prepareCaches_current
  intro _
  apply Triple.bind (fallible_leaves _)
  intro _
  rw [onServer_read]
  apply Triple.bind (Triple.read (Q := fun _ => CurrentIs room r) fun _ h => h)
  intro prev
  apply Triple.bind ((Triple.refuse _ fun _ h _ => h).mono (fun _ h => h) (fun _ _ h => h.1) fun _ h => h)
  intro _
  refine Triple.bind (modify_current fun _ => rfl) ?_
  intro _
  apply Triple.bind (fallible_leaves _)
  intro _
  refine Triple.bind (modify_current fun _ => rfl) ?_
  intro _
  apply Triple.bind (insertPdu_current _ _)
  intro position
  exact Triple.bind (fallible_leaves _) fun _ => Triple.pure _ fun _ h => h

variable (plat env recovered st) in
/-- From the publication on, the current state is the published one when the event is a
state event, and as before when not: the flag that is off decides only of the rest. -/
theorem fromRoot_current (hd : d.isTimelineEvent = false) (prev : Option Pdu) (position : Nat) :
    Triple (CurrentIs room r) (fromRoot plat env room d recovered st prev position)
      (fun _ => CurrentIs room (if d.pdu.stateKey.isSome then some st.root else r))
      (CurrentIs room (if d.pdu.stateKey.isSome then some st.root else r)) := by
  have hadvance : (d.toAppend room recovered st).advanceCurrentState = false := by simp [Delivery.toAppend, hd]
  have hlater : ∀ r, Leaves (CurrentIs room r) (advanceState env (d.toAppend room recovered st)) := by
    intro r
    unfold advanceState
    rw [hadvance]
    exact Triple.pure _ fun _ h => h
  have hfollow : ∀ r, Leaves (CurrentIs room r) (followRoot plat env room d st) := by
    intro r
    unfold followRoot
    split
    · exact caches_leave (P := fun s => s.roomRoot room = r) _ _ _
    · exact Triple.pure _ fun _ h => h
  unfold fromRoot
  apply Triple.bind (storeRoot_current _ _ _)
  intro _
  apply Triple.bind (hfollow _)
  intro _
  apply Triple.bind (hlater _)
  intro _
  apply Triple.bind (fallible_leaves _)
  intro _
  apply Triple.bind (fallible_leaves _)
  intro _
  refine Triple.bind (modify_current fun _ => rfl) ?_
  intro _
  refine Triple.bind (modify_current fun _ => rfl) ?_
  intro _
  apply Triple.bind (fallible_leaves _)
  intro _
  refine Triple.bind (modify_current fun _ => rfl) ?_
  intro _
  exact Triple.bind (fallible_leaves _) fun _ => Triple.pure _ fun _ h => h

end

end Ledger

/-! ## The calls that move it -/

section
variable (plat : Platform) (env : Env) (room : RoomId) (d : Delivery) (t : Ledger)

/-- The event passes its checks, `j` and `s` being what is found by the first of them, and
everything succeeds until its root is published. -/
def Passes (j : Judged) (s : Server) : Prop :=
  ∃ st s' x t', (d.judge plat room).exec t.server = (.ok (.inr j), s) ∧
    (d.settle plat room j).exec s = (.ok (.inr st), s') ∧ st.softFail = false ∧
    (Ledger.untilRoot plat env room d j.recovered st).exec { t with server := s' } = (.ok x, t')

/-- The state after a state event resolved with the current one, or the event in the current
state of a partial-state room. -/
def resolvedAfter (j : Judged) (s : Server) (key : StateKey) : Option Root :=
  (s.roomRoot room).map fun current =>
    if j.isPartial then current.insert (d.pdu.kind, key) d.id
    else resolved plat j.v (s.resView plat room) [current, j.stateAt.insert (d.pdu.kind, key) d.id]

variable {plat env room d t} {j : Judged} {s s' : Server} {st : Settled}

/-- The root that is published is that state. -/
theorem settle_root {key : StateKey} (hd : d.isTimelineEvent = false) (hkey : d.pdu.stateKey = some key)
    (h : (d.settle plat room j).exec s = (.ok (.inr st), s')) : resolvedAfter plat room d j s
      key = some st.root := by
  unfold Delivery.settle at h
  rw [exec_read] at h
  split at h
  · cases h
  · have hcheck : softFailCheck plat room j.v j.version d.pdu d.create j.isPartial j.claimed d.isTimelineEvent =
        pure false := by
      rw [softFailCheck, hd]
      rfl
    rw [hcheck, pure_bind] at h
    obtain ⟨⟨prevRoot, root⟩, s₁, hnew, h⟩ := Call.exec_bind_ok h
    obtain ⟨softFail, s₂, -, h⟩ := Call.exec_bind_ok h
    cases h
    unfold newRoomState at hnew
    unfold resolvedAfter
    rw [hkey] at hnew
    simp only at hnew
    rw [exec_read, exec_read] at hnew
    cases hpart : j.isPartial with
    | true =>
      rw [hpart] at hnew
      simp only [if_true] at hnew ⊢
      cases hcur : s.roomRoot room with
      | some current =>
        rw [hcur] at hnew
        cases hnew
        rfl
      | none =>
        -- without a current state there is nothing to resolve with
        rw [hcur] at hnew
        obtain ⟨r, s₃, hr, -⟩ := Call.exec_bind_ok hnew
        obtain ⟨current, hsome, -⟩ := resolveState_exec hr
        cases hcur.symm.trans hsome
    | false =>
      rw [hpart] at hnew
      simp only [Bool.false_eq_true, if_false] at hnew ⊢
      obtain ⟨r, s₃, hr, hlast⟩ := Call.exec_bind_ok hnew
      cases hlast
      obtain ⟨current, hsome, rfl⟩ := resolveState_exec hr
      rw [hsome]
      rfl

theorem Passes.current {key : StateKey} (hd : d.isTimelineEvent = false) (hkey : d.pdu.stateKey = some key)
    (h : Passes plat env room d t j s) :
    ((Ledger.upgradeOutlierToTimelinePdu plat env room d).exec t).2.server.roomRoot room =
      resolvedAfter plat room d j s key := by
  obtain ⟨st, s₂, x, t', hj, hs, hsoft, huntil⟩ := h
  have hcommit : Ledger.commit plat env room d j.recovered st = Ledger.accept plat env room d j.recovered st :=
    if_neg (by simp [hsoft])
  have hexec : (Ledger.upgradeOutlierToTimelinePdu plat env room d).exec t =
      (Ledger.fromRoot plat env room d j.recovered st x.1 x.2).exec t' := by
    unfold Ledger.upgradeOutlierToTimelinePdu
    rw [exec_onServer_ok hj]
    dsimp only
    rw [exec_onServer_ok (t := { t with server := s }) hs]
    dsimp only
    rw [hcommit, Ledger.accept_eq, Call.exec_bind, huntil]
  have hstart : Ledger.CurrentIs room (t'.server.roomRoot room) t' := rfl
  have hend := (Ledger.fromRoot_current plat env j.recovered st hd x.1 x.2).state hstart
  rw [hkey, Option.isSome_some, if_pos rfl] at hend
  rw [hexec, settle_root hd hkey hs]
  exact hend

theorem current_of_not_passed (hd : d.isTimelineEvent = false)
    (h : ∀ j s, Passes plat env room d t j s → d.pdu.stateKey = none) :
    ((Ledger.upgradeOutlierToTimelinePdu plat env room d).exec t).2.server.roomRoot room =
      t.server.roomRoot room := by
  rcases upgrade_cases plat room t env d with hstill | ⟨j, st, s₁, s₂, hj, hst, hsoft, hu, hexec⟩
  · rw [hstill.roomRoot]
  · have hstart : Ledger.CurrentIs room (t.server.roomRoot room) { t with server := s₂ } :=
      congrFun hu.roomRoot room
    have huntil := (Ledger.untilRoot_current plat env d j.recovered st).state hstart
    rw [hexec, Ledger.accept_eq, Call.exec_bind]
    rcases hrun : (Ledger.untilRoot plat env room d j.recovered st).exec { t with server := s₂ } with ⟨r, t'⟩
    rw [hrun] at huntil
    cases r with
    | error e => exact huntil
    | ok x =>
      have hkey := h j s₁ ⟨st, s₂, x, t', hj, hst, hsoft, hrun⟩
      have hend := (Ledger.fromRoot_current plat env j.recovered st hd x.1 x.2).state huntil
      rw [hkey] at hend
      exact hend

/-- A predecessor leaves the current state of its room exactly when it is no state event,
when it does not get as far as the publication of its root, or when the state after it is
the current state. -/
theorem predecessor_keeps_current_root (hd : d.isTimelineEvent = false) :
    ((Ledger.upgradeOutlierToTimelinePdu plat env room d).exec t).2.server.roomRoot room = t.server.roomRoot room ↔
      ∀ key, d.pdu.stateKey = some key → ∀ j s, Passes plat env room d t j s →
        resolvedAfter plat room d j s key = t.server.roomRoot room := by
  constructor
  · intro hsame key hkey j s hpass
    rw [← hsame]
    exact (hpass.current hd hkey).symm
  · intro h
    by_cases hpass : ∃ j s key, Passes plat env room d t j s ∧ d.pdu.stateKey = some key
    · obtain ⟨j, s, key, hpass, hkey⟩ := hpass
      rw [hpass.current hd hkey, h key hkey j s hpass]
    · apply current_of_not_passed hd
      intro j s hp
      rw [Option.eq_none_iff_forall_ne_some]
      exact fun key hkey => hpass ⟨j, s, key, hp, hkey⟩

end

def promoted (id : EventId) : Delivery := { storedDelivery id with isTimelineEvent := false }

/-- The stored message is appended, and the state stays. -/
theorem promoted_message_keeps_current_root :
    let t := ((Ledger.upgradeOutlierToTimelinePdu .union .steady "!r:a" (promoted "$m")).exec .plain).2
    t.server.getPduId "$m" = some 2 ∧ t.server.roomRoot "!r:a" = Ledger.plain.server.roomRoot "!r:a" := by
  intro t
  have hnone : (promoted "$m").pdu.stateKey = none := by decide
  refine ⟨by decide, (predecessor_keeps_current_root rfl).2 fun key hkey => ?_⟩
  rw [hnone] at hkey
  cases hkey

-- The stored name of the room, a predecessor, becomes the current one.
theorem promoted_state_event_moves_current_root :
    ¬ ∀ (plat : Platform) (env : Env) (room : RoomId) (d : Delivery) (t : Ledger), d.isTimelineEvent = false →
      ((Ledger.upgradeOutlierToTimelinePdu plat env room d).exec t).2.server.roomRoot room =
        t.server.roomRoot room := by
  intro h
  have hsame := h .union .steady "!r:a" (promoted "$a") .plain rfl
  have hname := congrArg (fun r => r.bind fun root : Root => root.lookup (.other "m.room.name", "")) hsame
  exact absurd hname (by decide)

end Congruent
