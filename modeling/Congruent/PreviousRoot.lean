import Congruent.FetchedState
import Congruent.ForkStates
import Congruent.JoinedTable

/-!
# The recorded previous root

The root before a state event is the root stored for its only predecessor, where that can
stand for the state after it. Whether it is the state the event was judged by depends on
where that state came from.
-/

namespace Congruent

open H
open Call (Ensures Keeps)

/-- The state after the only predecessor is found, and the sender's membership is in it or
not asked for. -/
def SnapshotServes (plat : Platform) (room : RoomId) (d : Delivery) (s : Server) : Prop :=
  ∃ p, d.prevEvents = [p] ∧ (s.getPduInRoom plat room p).isSome ∧
    (exemptFromMembership plat d.pdu = true ∨ (s.world s.clock).partialServer room = true ∨
      ((forkAfter plat room s s.eventRoot p).lookup (.roomMember, d.pdu.sender)).isSome)

section
variable (plat : Platform) (room : RoomId) (d : Delivery)

/-- The server once it has looked at the state after a predecessor it has. -/
def Server.looked (s : Server) : Server :=
  if d.prevEvents.any fun p => (s.getPduInRoom plat room p).isSome then Write.tick.apply plat s else s

/-- The events that the peers list for the state before an event with one predecessor, and the
store with these in it. They are asked for the state at the anchor, and for that at the event
when the anchor is not the predecessor or what they list is no state. -/
def peersAnswer (s : Server) : Except HErr (List EventId) × Server :=
  match d.anchor with
  | none => (fetchUnknown plat d.n d.origin d.create room d.id false).exec s
  | some anchor =>
    match (fetchState plat d.n d.origin d.create room anchor false).exec s with
    | (.ok _, s') =>
      if d.prevEvents = [anchor] then (fetchUnknown plat d.n d.origin d.create room anchor false).exec s
      else (fetchUnknown plat d.n d.origin d.create room d.id false).exec s'
    | (.error _, s') => (fetchUnknown plat d.n d.origin d.create room d.id false).exec s'

/-- The entries that the events listed by the peers have in the store are those of the root. -/
def PeersHave (s : Server) (root : Root) : Prop :=
  ∃ ids s', peersAnswer plat room d s = (.ok ids, s') ∧
    ∀ key e, root.lookup key = some e ↔ ∃ eid ∈ ids, stateEntry plat room s' eid = some (key, e)

end

section
variable {plat : Platform} {room : RoomId} {s s' s₁ s₂ : Server} {d : Delivery} {p : EventId} {root : Root}

theorem fetchState_ok {id : EventId} {fetched : Root}
    (h : (fetchState plat d.n d.origin d.create room id false).exec s = (.ok fetched, s')) :
    ∃ ids, (fetchUnknown plat d.n d.origin d.create room id false).exec s = (.ok ids, s') ∧
      ∀ key e, fetched.lookup key = some e ↔ ∃ eid ∈ ids, stateEntry plat room s' eid = some (key, e) := by
  rw [fetchState_eq] at h
  obtain ⟨ids, s₁, hlist, hmap⟩ := Call.exec_bind_ok h
  unfold stateMap at hmap
  obtain ⟨entered, s₂, hfold, hlast⟩ := Call.exec_bind_ok hmap
  obtain ⟨rfl, hall⟩ := enterStates_ok hfold
  split at hlast
  · cases hlast
    refine ⟨ids, hlist, fun key e => ?_⟩
    simpa only [AList.lookup_empty, reduceCtorEq, false_or] using hall key e
  · cases hlast

theorem fetchStateAt_ok {v : RoomVersionId} {fetched : Root} (hprev : d.prevEvents = [p])
    (h : (fetchStateAt plat d.n d.origin d.create room v d.pdu d.anchor).exec s = (.ok fetched, s')) :
    ∃ ids s₁, peersAnswer plat room d s = (.ok ids, s₁) ∧
      ∀ key e, fetched.lookup key = some e ↔ ∃ eid ∈ ids, stateEntry plat room s₁ eid = some (key, e) := by
  unfold fetchStateAt anchoredStateAt at h
  unfold peersAnswer
  have hpdu : d.pdu.prevEvents = [p] := hprev
  cases hanchor : d.anchor with
  | none =>
    rw [hanchor] at h
    obtain ⟨ids, hlist, hall⟩ := fetchState_ok h
    exact ⟨ids, s', hlist, hall⟩
  | some anchor =>
    rw [hanchor] at h
    simp only at h ⊢
    rw [Call.exec_bind, Call.exec_bind, Call.exec_attempt] at h
    rcases hfetch : (fetchState plat d.n d.origin d.create room anchor false).exec s with ⟨r, s₁⟩
    rw [hfetch] at h
    simp only at h ⊢
    cases r with
    | error e =>
      obtain ⟨ids, hlist, hall⟩ := fetchState_ok h
      exact ⟨ids, s', hlist, hall⟩
    | ok state =>
      simp only at h ⊢
      rw [hpdu] at h
      rw [hprev]
      by_cases hp : [p] = [anchor]
      · rw [if_pos hp] at h ⊢
        cases h
        obtain ⟨ids, hlist, hall⟩ := fetchState_ok hfetch
        exact ⟨ids, s', hlist, hall⟩
      · rw [if_neg hp] at h ⊢
        obtain ⟨ids, hlist, hall⟩ := fetchState_ok h
        exact ⟨ids, s', hlist, hall⟩

theorem peersHave_iff {v : RoomVersionId} {fetched : Root} (hprev : d.prevEvents = [p])
    (h : (fetchStateAt plat d.n d.origin d.create room v d.pdu d.anchor).exec s = (.ok fetched, s')) :
    PeersHave plat room d s root ↔ SameMap root fetched := by
  obtain ⟨ids, s₁, hanswer, hall⟩ := fetchStateAt_ok hprev h
  constructor
  · rintro ⟨ids', s₂, hanswer', hroot⟩ key
    cases hanswer.symm.trans hanswer'
    refine Option.ext fun e => ?_
    exact (hroot key e).trans (hall key e).symm
  · intro hsame
    refine ⟨ids, s₁, hanswer, fun key e => ?_⟩
    rw [hsame key]
    exact hall key e

theorem reusableRoot_some {pdu : Pdu} (h : s.reusableRoot plat room pdu = some root) :
    ∃ p, pdu.prevEvents = [p] ∧ s.eventRoot p = some root ∧ SameMap (forkAfter plat room s s.eventRoot p) root := by
  unfold Server.reusableRoot at h
  split at h
  · next p hprev =>
    split at h
    · next prev root' hp hr =>
      have hid : prev.eventId = p := getPduInRoom_eventId hp
      split at h
      · next hkey =>
        cases h
        refine ⟨p, hprev, hr, ?_⟩
        rw [forkAfter_eq hp hr, rootIs_iff, RootIs, hkey]
        exact .refl _
      · next key hkey =>
        split at h
        · next found hfound =>
          split at h
          · next heq =>
            cases h
            obtain ⟨id, hlook, hget⟩ := Option.bind_eq_some_iff.1 hfound
            have hown : root.lookup (prev.kind, key) = some prev.eventId := by
              rw [hlook, ← getPduInRoom_eventId hget, heq, hid]
            refine ⟨p, hprev, hr, ?_⟩
            rw [forkAfter_eq hp hr, rootIs_iff, RootIs, hkey]
            exact ⟨hown, fun _ _ => rfl⟩
          · cases h
        · cases h
    · cases h
  · cases h

/-! ## Where the state at an event comes from -/

theorem predecessorState_one {n : Nat} {v : RoomVersionId} (hprev : d.prevEvents = [p]) :
    predecessorState plat n room v d.pdu.prevEvents = stateAtIncomingDegreeOne plat n room p := by
  rw [show d.pdu.prevEvents = [p] from hprev]
  rfl

theorem localStateAt_missing {n : Nat} {v : RoomVersionId} (hprev : d.prevEvents = [p])
    (hp : s.getPduInRoom plat room p = none) : (localStateAt plat n room v d.pdu).exec s = (.ok none, s) := by
  have hdegree : (stateAtIncomingDegreeOne plat n room p).exec s = (.ok none, s) := by
    unfold stateAtIncomingDegreeOne
    rw [exec_read, hp]
    rfl
  unfold localStateAt
  rw [predecessorState_one hprev, Call.exec_bind, hdegree]
  rfl

theorem localStateAt_rooted {n : Nat} (hn : 0 < n) {v : RoomVersionId} (hprev : d.prevEvents = [p])
    (hr : s.eventRoot p = some root) (hroom : NamesRoom plat room s p) :
    (localStateAt plat n room v d.pdu).exec s =
      (.ok (if !exemptFromMembership plat d.pdu && !(s.world s.clock).partialServer room &&
          ((forkAfter plat room s s.eventRoot p).lookup (.roomMember, d.pdu.sender)).isNone then none
        else some (forkAfter plat room s s.eventRoot p)), Write.tick.apply plat s) := by
  obtain ⟨pdu, hp, hroom⟩ := hroom
  obtain ⟨n, rfl⟩ : ∃ m, n = m + 1 := ⟨n - 1, by omega⟩
  have hwalk : (walkBack plat room (n + 1) p pdu).exec s = (.ok (some (root, pdu)), s) := by
    unfold walkBack
    rw [exec_read, hr]
    rfl
  have hdegree : (stateAtIncomingDegreeOne plat (n + 1) room p).exec s =
      (.ok (some (forkAfter plat room s s.eventRoot p)), s) := by
    unfold stateAtIncomingDegreeOne
    rw [exec_read, hp]
    simp only [hroom, ne_eq, not_true_eq_false, if_false]
    rw [Call.exec_bind, hwalk, forkAfter_eq hp hr]
    rfl
  have hlacks : (lacksSenderMembership plat room d.pdu (forkAfter plat room s s.eventRoot p)).exec s =
      (.ok (!exemptFromMembership plat d.pdu && !(s.world s.clock).partialServer room &&
        ((forkAfter plat room s s.eventRoot p).lookup (.roomMember, d.pdu.sender)).isNone),
          Write.tick.apply plat s) := rfl
  unfold localStateAt
  rw [predecessorState_one hprev, Call.exec_bind, hdegree]
  simp only
  rw [Call.exec_bind, hlacks]
  simp only
  split
  · rfl
  · rfl

theorem localStateAt_foreign {n : Nat} {v : RoomVersionId} (hprev : d.prevEvents = [p])
    (hp : (s.getPduInRoom plat room p).isSome) (hroom : ¬ NamesRoom plat room s p) :
    ∃ e, (localStateAt plat n room v d.pdu).exec s = (.error e, s) := by
  obtain ⟨pdu, hp⟩ := Option.isSome_iff_exists.1 hp
  have hne : pdu.roomId ≠ some room := fun heq => hroom ⟨pdu, hp, heq⟩
  have hdegree : (stateAtIncomingDegreeOne plat n room p).exec s =
      (.error (.database "prev_event is not in the same room"), s) := by
    unfold stateAtIncomingDegreeOne
    rw [exec_read, hp]
    simp only [ne_eq, hne, not_false_eq_true, if_true]
    rfl
  unfold localStateAt
  rw [predecessorState_one hprev, Call.exec_bind, hdegree]
  exact ⟨_, rfl⟩

/-- The state an event is judged by was made from the store, or fetched. -/
theorem judge_state {j : Judged} (h : (d.judge plat room).exec s = (.ok (.inr j), s₁)) :
    (∃ s', (localStateAt plat d.n room j.v d.pdu).exec s = (.ok (some j.stateAt), s') ∧ Calm plat room s s₁) ∨
      ∃ s', (localStateAt plat d.n room j.v d.pdu).exec s = (.ok none, s') ∧
        ((fetchStateAt plat d.n d.origin d.create room j.v d.pdu d.anchor).exec s').1 = .ok j.stateAt := by
  unfold Delivery.judge at h
  rw [exec_read] at h
  split at h
  · cases h
  · rw [exec_read] at h
    split at h
    · cases h
    · obtain ⟨v, s₂, hv, h₂⟩ := Call.exec_bind_ok h
      obtain ⟨-, rfl⟩ := exec_lift hv
      obtain ⟨⟨stateAt, recovered⟩, s₃, hstate, h₃⟩ := Call.exec_bind_ok h₂
      obtain ⟨version, s₄, hversion, h₄⟩ := Call.exec_bind_ok h₃
      have hcalm₃ : Calm plat room s₃ s₄ := .of_keeps (lift_keeps _) hversion
      obtain ⟨isPartial, s₅, hpartial, h₅⟩ := Call.exec_bind_ok h₄
      have hcalm₄ : Calm plat room s₄ s₅ := .of_keeps (ask_of_tick Calm.allows.tick _) hpartial
      rw [exec_read] at h₅
      obtain ⟨passes, s₆, hpasses, h₆⟩ := Call.exec_bind_ok h₅
      have hcalm₅ : Calm plat room s₅ s₆ := .of_keeps Ensures.ask hpasses
      have hdone : j.v = v ∧ j.stateAt = stateAt ∧ s₁ = s₆ := by
        split at h₆
        · obtain ⟨u, s₇, -, h₇⟩ := Call.exec_bind_ok h₆
          cases h₇
        · cases h₆
          exact ⟨rfl, rfl, rfl⟩
      obtain ⟨rfl, rfl, rfl⟩ := hdone
      unfold stateAtIncoming at hstate
      obtain ⟨found, s₇, hfound, hstate'⟩ := Call.exec_bind_ok hstate
      cases found with
      | some state =>
        cases hstate'
        have hcalm : Calm plat room s₂ s₃ := .of_keeps (localStateAt_keeps Calm.allows _ _) hfound
        exact .inl ⟨s₃, hfound, ((hcalm.trans hcalm₃).trans hcalm₄).trans hcalm₅⟩
      | none =>
        obtain ⟨state, s₈, hfetch, hlast⟩ := Call.exec_bind_ok hstate'
        cases hlast
        exact .inr ⟨s₇, hfound, congrArg Prod.fst hfetch⟩

theorem Calm.forkAfter (h : Calm plat room s s') (p : EventId) :
    forkAfter plat room s' s'.eventRoot p = forkAfter plat room s s.eventRoot p := by
  simp only [Congruent.forkAfter, h.getPduInRoom, h.roots]

theorem serves_iff (hprev : d.prevEvents = [p]) (hp : (s.getPduInRoom plat room p).isSome) :
    SnapshotServes plat room d s ↔
      ¬ (!exemptFromMembership plat d.pdu && !(s.world s.clock).partialServer room &&
        ((forkAfter plat room s s.eventRoot p).lookup (.roomMember, d.pdu.sender)).isNone) = true := by
  have hone : SnapshotServes plat room d s ↔ exemptFromMembership plat d.pdu = true ∨
      (s.world s.clock).partialServer room = true ∨
      ((forkAfter plat room s s.eventRoot p).lookup (.roomMember, d.pdu.sender)).isSome := by
    constructor
    · rintro ⟨p', hprev', -, hserves⟩
      obtain rfl : p' = p := List.singleton_inj.1 (hprev'.symm.trans hprev)
      exact hserves
    · intro hserves
      exact ⟨p, hprev, hp, hserves⟩
  rw [hone]
  cases exemptFromMembership plat d.pdu with
  | true => simp
  | false =>
    cases (s.world s.clock).partialServer room with
    | true => simp
    | false => simp [Option.isSome_iff_ne_none]

theorem localStateAt_served {v : RoomVersionId} {stateAt : Root} (hn : 0 < d.n) (hprev : d.prevEvents = [p])
    (hr : s.eventRoot p = some root) (h : (localStateAt plat d.n room v d.pdu).exec s = (.ok (some stateAt), s')) :
    SnapshotServes plat room d s ∧ stateAt = forkAfter plat room s s.eventRoot p := by
  have hstored : (s.getPduInRoom plat room p).isSome := by
    by_contra hnone
    rw [localStateAt_missing hprev (Option.not_isSome_iff_eq_none.1 hnone)] at h
    cases h
  have hnames : NamesRoom plat room s p := by
    by_contra hroom
    obtain ⟨e, he⟩ := localStateAt_foreign (n := d.n) (v := v) hprev hstored hroom
    rw [he] at h
    cases h
  have hrooted := localStateAt_rooted hn (v := v) hprev hr hnames
  rw [h] at hrooted
  split at hrooted
  · cases hrooted
  · next hlacks =>
    exact ⟨(serves_iff hprev hstored).2 hlacks, Option.some.inj (Except.ok.inj (congrArg Prod.fst hrooted))⟩

theorem localStateAt_lacking {v : RoomVersionId} (hn : 0 < d.n) (hprev : d.prevEvents = [p])
    (hr : s.eventRoot p = some root) (h : (localStateAt plat d.n room v d.pdu).exec s = (.ok none, s')) :
    ¬ SnapshotServes plat room d s ∧ s' = s.looked plat room d := by
  unfold Server.looked
  rw [hprev, List.any_cons, List.any_nil, Bool.or_false]
  cases hstored : s.getPduInRoom plat room p with
  | none =>
    rw [localStateAt_missing hprev hstored] at h
    refine ⟨?_, (Prod.mk.inj h).2.symm⟩
    rintro ⟨p', hprev', hsome, -⟩
    obtain rfl : p' = p := List.singleton_inj.1 (hprev'.symm.trans hprev)
    rw [hstored] at hsome
    cases hsome
  | some pdu =>
    have hsome : (s.getPduInRoom plat room p).isSome := by
      rw [hstored]
      rfl
    by_cases hroom : NamesRoom plat room s p
    · rw [localStateAt_rooted hn hprev hr hroom] at h
      refine ⟨fun hserves => ?_, (Prod.mk.inj h).2.symm⟩
      rw [if_neg ((serves_iff hprev hsome).1 hserves)] at h
      cases h
    · obtain ⟨e, he⟩ := localStateAt_foreign (n := d.n) (v := v) hprev hsome hroom
      rw [he] at h
      cases h

/-- A root that is reused is the state the event was judged by exactly when that state was
made from the predecessor, or what the peers answer has the same entries. -/
theorem reused_root_is_judged_state {j : Judged} {failed : Bool} (hn : 0 < d.n)
    (hjudge : (d.judge plat room).exec s = (.ok (.inr j), s₁))
    (hsoft : (softFailCheck plat room j.v j.version d.pdu d.create j.isPartial j.claimed
      d.isTimelineEvent).exec s₁ =
      (.ok failed, s₂))
    (hreuse : s₂.reusableRoot plat room d.pdu = some root) :
    SameMap root j.stateAt ↔ SnapshotServes plat room d s ∨ PeersHave plat room d (s.looked plat room d) root := by
  have hcalm : Calm plat room s₁ s₂ := .of_keeps (softFailCheck_keeps Calm.allows _ _ _ _ _ _) hsoft
  have hmoved : Unmoved s s₁ := by
    have hpath := (judge_keeps (T := Unmoved) plat room d s).solo.1
    rw [hjudge] at hpath
    exact .of_path hpath
  obtain ⟨p, hprev, hr₂, hafter⟩ := reusableRoot_some hreuse
  have hr : s.eventRoot p = some root := by rw [← hmoved.eventRoot, ← hcalm.roots, hr₂]
  rcases judge_state hjudge with ⟨s', hlocal, hsame⟩ | ⟨s', hlocal, hfetch⟩
  · -- made from the predecessor: then its membership was not lacking
    obtain ⟨hserves, hstate⟩ := localStateAt_served hn hprev hr hlocal
    have hfork : forkAfter plat room s₂ s₂.eventRoot p = forkAfter plat room s s.eventRoot p := by
      rw [(hsame.trans hcalm).forkAfter]
    constructor
    · intro _
      exact .inl hserves
    · intro _
      rw [hstate, ← hfork]
      exact hafter.symm
  · -- fetched: then it was lacking, or the predecessor was not stored
    obtain ⟨hlacking, rfl⟩ := localStateAt_lacking hn hprev hr hlocal
    have hhave : PeersHave plat room d (s.looked plat room d) root ↔ SameMap root j.stateAt :=
      peersHave_iff hprev (Prod.ext hfetch rfl)
    constructor
    · intro hsame
      exact .inr (hhave.2 hsame)
    · rintro (hserves | hpeers)
      · exact absurd hserves hlacking
      · exact hhave.1 hpeers

end

/-! ## A snapshot without the sender -/

/-- The room where `$a` has a root of its own, and the peers know the state before `$t`. -/
def Server.snapshotOf (root : Root) : Server :=
  { Server.withOutliers with
    eventRoot := fun id => if id = "$a" then some root else Server.withOutliers.eventRoot id
    world := fun _ => { World.plain with stateIds := fun _ _ _ => some ([], ["$c", "$j", "$a"]) } }

/-- What a partial-state join leaves: no members. -/
def memberlessRoot : Root := ((∅ : Root).insert (.roomCreate, "") "$c").insert (.other "m.room.name", "") "$a"

def nameRoot : Root := joinRoot.insert (.other "m.room.name", "") "$a"

def promotedTopic : Delivery := { storedDelivery "$t" with isTimelineEvent := false }

def judgedAt (root : Root) : Option (Judged × Server) :=
  match (promotedTopic.judge .union "!r:a").exec (.snapshotOf root) with
  | (.ok (.inr j), s) => some (j, s)
  | _ => none

theorem judgedAt_some {root : Root} {j : Judged} {s : Server} (h : judgedAt root = some (j, s)) :
    (promotedTopic.judge .union "!r:a").exec (.snapshotOf root) = (.ok (.inr j), s) := by
  unfold judgedAt at h
  split at h
  · next heq =>
    cases h
    exact heq
  · cases h

theorem snapshot_with_sender_reused :
    ∃ j s₁ root, (promotedTopic.judge .union "!r:a").exec (.snapshotOf nameRoot) = (.ok (.inr j), s₁) ∧
      s₁.reusableRoot .union "!r:a" promotedTopic.pdu = some root ∧ SameMap root j.stateAt := by
  have hrun : (judgedAt nameRoot).any (fun r => (r.2.reusableRoot .union "!r:a" promotedTopic.pdu).isSome) =
      true := by
    decide
  obtain ⟨⟨j, s₁⟩, hrun, hreuse⟩ := (Option.any_eq_true _ _).1 hrun
  obtain ⟨root, hreuse⟩ := Option.isSome_iff_exists.1 hreuse
  refine ⟨j, s₁, root, judgedAt_some hrun, hreuse, ?_⟩
  have hprev : promotedTopic.prevEvents = ["$a"] := by decide
  have hstored : ((Server.snapshotOf nameRoot).getPduInRoom .union "!r:a" "$a").isSome = true := by decide
  have hsender : ((forkAfter .union "!r:a" (.snapshotOf nameRoot)
    (Server.snapshotOf nameRoot).eventRoot "$a").lookup
      (.roomMember, promotedTopic.pdu.sender)).isSome = true := by decide
  exact (reused_root_is_judged_state (by decide) (judgedAt_some hrun) rfl hreuse).2
    (.inl ⟨"$a", hprev, hstored, .inr (.inr hsender)⟩)

/-- A snapshot without members stays the previous root of an event that was judged by the
state its sender is in. -/
theorem memberless_root_reused :
    ¬ ∀ (plat : Platform) (room : RoomId) (d : Delivery) (s s₁ s₂ : Server) (j : Judged)
      (failed : Bool) (root : Root),
      0 < d.n → (d.judge plat room).exec s = (.ok (.inr j), s₁) →
      (softFailCheck plat room j.v j.version d.pdu d.create j.isPartial j.claimed d.isTimelineEvent).exec s₁ =
        (.ok failed, s₂) →
      s₂.reusableRoot plat room d.pdu = some root → SameMap root j.stateAt := by
  intro h
  have hrun : (judgedAt memberlessRoot).any (fun r => r.1.stateAt.lookup (.roomMember, "@u:b") = some "$j" &&
      (r.2.reusableRoot .union "!r:a" promotedTopic.pdu).any fun root => root.lookup (.roomMember, "@u:b") = none) =
        true := by
    decide
  obtain ⟨⟨j, s₁⟩, hrun, hfacts⟩ := (Option.any_eq_true _ _).1 hrun
  rw [Bool.and_eq_true, decide_eq_true_eq] at hfacts
  obtain ⟨root, hreuse, hnone⟩ := (Option.any_eq_true _ _).1 hfacts.2
  have hsame := h .union "!r:a" promotedTopic (.snapshotOf memberlessRoot) s₁ s₁ j false root (by decide)
    (judgedAt_some hrun) rfl hreuse
  have hmember := hsame (.roomMember, "@u:b")
  rw [hfacts.1, of_decide_eq_true hnone] at hmember
  cases hmember

end Congruent
