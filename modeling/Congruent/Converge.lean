import Congruent.FullConflicted
import Congruent.PowerSort
import Congruent.SecondSort

/-!
# Convergence of resolution

Two runs of `resolve` on the same state sets end alike when the power levels of
the events they sort do not depend on the order of the lookups. An event whose
lookup looks at two power-levels events breaks this: its level is read from
whichever of them another lookup has parsed before.
-/

namespace Congruent

/-! ## Runs that end alike -/

/-- Two maps with the same entries. -/
def SameMap (m m' : StateMap EventId) : Prop := ∀ k, m.lookup k = m'.lookup k

/-- Two runs fail with the same error, or succeed with related values. -/
def Agree {α : Type} (R : α → α → Prop) : Except Error α → Except Error α → Prop
  | .ok a, .ok a' => R a a'
  | .error e, .error e' => e = e'
  | _, _ => False

theorem Agree.bind {α β : Type} {R : α → α → Prop} {Q : β → β → Prop} {x x' : Except Error α}
    {f f' : α → Except Error β} (h : Agree R x x') (hf : ∀ a a', R a a' → Agree Q (f a) (f' a')) :
    Agree Q (x >>= f) (x' >>= f') := by
  cases x with
  | error e =>
    cases x' with
    | error e' => exact h
    | ok a' => exact h.elim
  | ok a =>
    cases x' with
    | error e' => exact h.elim
    | ok a' => exact hf a a' h

theorem ok_bind {α β : Type} (a : α) (f : α → Except Error β) : (Except.ok a >>= f) = f a := rfl

theorem Agree.lookup_eq {x x' : Except Error (StateMap EventId)} (h : Agree SameMap x x') (k : TypeStateKey) :
    (x.toOption.bind fun m => m.lookup k) = x'.toOption.bind fun m => m.lookup k := by
  cases x with
  | error e =>
    cases x' with
    | error e' => rfl
    | ok m' => exact absurd h id
  | ok m =>
    cases x' with
    | error e' => exact absurd h id
    | ok m' => exact (h : SameMap m m') k

theorem Agree.of_eq {α : Type} {R : α → α → Prop} (hR : ∀ a, R a a) {x x' : Except Error α} (h : x = x') :
    Agree R x x' := by
  subst h
  cases x with
  | error e => exact rfl
  | ok a => exact hR a

theorem SameMap.refl (m : StateMap EventId) : SameMap m m := fun _ => rfl

theorem SameMap.insert {m m' : StateMap EventId} (h : SameMap m m') (k : TypeStateKey) (id : EventId) :
    SameMap (m.insert k id) (m'.insert k id) := by
  intro k'
  by_cases hk : k' = k
  · rw [hk, AList.lookup_insert, AList.lookup_insert]
  · rw [AList.lookup_insert_ne hk, AList.lookup_insert_ne hk]
    exact h k'

theorem SameMap.union {m m' u u' : StateMap EventId} (hu : SameMap u u') (h : SameMap m m') :
    SameMap (u ∪ m) (u' ∪ m') := by
  intro k
  have hmem : k ∈ u ↔ k ∈ u' := by rw [← AList.lookup_isSome, ← AList.lookup_isSome, hu k]
  by_cases hk : k ∈ u
  · rw [AList.lookup_union_left hk, AList.lookup_union_left (hmem.mp hk)]
    exact hu k
  · rw [AList.lookup_union_right hk, AList.lookup_union_right (mt hmem.mpr hk)]
    exact h k

/-! ## Passes of auth checks -/

section
variable {c : Codec} {store : EventStore} {v : RoomVersion}

def SamePass (p p' : AuthPass) : Prop := SameMap p.resolved p'.resolved ∧ p.createEvent = p'.createEvent

theorem authDecision_same {p p' : AuthPass} (h : SamePass p p') (ev : Pdu) :
    authDecision c store v p ev = authDecision c store v p' ev := by
  have hsupp : supplementalState store p.resolved = supplementalState store p'.resolved := by
    funext authTypes
    unfold supplementalState
    simp only [h.1 _]
  unfold authDecision authStateFor
  rw [h.2, hsupp]

theorem authStep_same {p p' : AuthPass} (h : SamePass p p') (ev : Pdu) :
    Agree SamePass (authStep c store v p ev) (authStep c store v p' ev) := by
  unfold authStep
  refine (Agree.of_eq (fun _ => rfl) (authDecision_same h ev)).bind ?_
  rintro ⟨allowed, create⟩ _ rfl
  cases allowed with
  | false => exact ⟨h.1, rfl⟩
  | true =>
    cases ev.stateKey with
    | none => exact ⟨h.1, rfl⟩
    | some key => exact ⟨h.1.insert _ _, rfl⟩

theorem authPass_same : ∀ (evs : List Pdu) {p p' : AuthPass}, SamePass p p' →
    Agree SamePass (authPass c store v p evs) (authPass c store v p' evs)
  | [], _, _, h => h
  | ev :: evs, _, _, h => (authStep_same h ev).bind fun _ _ h => authPass_same evs h

theorem iterativeAuthCheck_same (ids : List EventId) {m m' : StateMap EventId} (h : SameMap m m') :
    Agree SameMap (iterativeAuthCheck c store v ids m) (iterativeAuthCheck c store v ids m') := by
  unfold iterativeAuthCheck
  refine (Agree.of_eq (fun _ => rfl) rfl).bind ?_
  rintro events _ rfl
  have hstart : SamePass ⟨m, hoistedCreate c store v events⟩ ⟨m', hoistedCreate c store v events⟩ := ⟨h, rfl⟩
  exact (authPass_same events hstart).bind fun pass pass' h => (h.1 : SameMap pass.resolved pass'.resolved)

end

/-! ## Both sorts -/

theorem insertionSort_perm {l l' : List EventId} (h : l.Perm l') :
    l.insertionSort (· ≤ ·) = l'.insertionSort (· ≤ ·) := by
  refine List.Perm.eq_of_pairwise (fun x y _ _ hxy hyx => le_antisymm hxy hyx)
    (List.pairwise_insertionSort _ _) (List.pairwise_insertionSort _ _) ?_
  exact (List.perm_insertionSort _ l).trans (h.trans (List.perm_insertionSort _ l').symm)

theorem isFoundation_of_isPower {c : Codec} {ev : Pdu} (h : isPowerEvent c ev = true) : isFoundationEvent
    ev = true := by
  unfold isPowerEvent at h
  unfold isFoundationEvent
  split at h
  · rename_i hk; rw [hk]
  · rename_i hk; rw [hk]
  · rename_i hk; rw [hk]
  · rename_i hk; rw [hk]
  · cases h

section
variable (c : Codec) (store : EventStore) (version : StateResolutionVersion) (full : EventId → Prop)

/-- The events a version sorts by power first: the foundation of the room in
version 2.1, else the control events. -/
def startsSort (ev : Pdu) : Bool := if version = .V2_1 then isFoundationEvent ev else isPowerEvent c ev

/-- The events whose senders' power levels decide an order: what a sort starts
from and, along auth events, the rest of the set that it cites. -/
def SortedFrom (starts : Pdu → Bool) (x : EventId) : Prop :=
  ∃ y ev, full y ∧ store.fetch y = some ev ∧ starts ev = true ∧
    Relation.ReflTransGen (fun a b => b ∈ authEventsOf store a ∧ full b) y x

def SortedByPower : EventId → Prop := SortedFrom store full (startsSort c version)

/-- The levels of the events that version 2.1 sorts a second time are settled too. -/
def SettledTwice : Prop :=
  version = .V2_1 → SettledAgain c store (SortedByPower c store version full)
    (SortedFrom store full (isPowerEvent c))

/-- The tables that the sort of the control events starts with. -/
def TablesBefore (caches : PlCaches) : Prop :=
  if version = .V2_1 then CachesFull c store (SortedByPower c store version full) caches else caches = .empty

end

section
variable {c : Codec} {store : EventStore} {version : StateResolutionVersion} {full : EventId → Prop}
  {conflicted conflicted' : List EventId} {v : RoomVersion} {unconflicted unconflicted' : StateMap EventId}

theorem startsSort_of_isPower {ev : Pdu} (h : isPowerEvent c ev = true) : startsSort c version ev = true := by
  unfold startsSort
  split
  · exact isFoundation_of_isPower h
  · exact h

theorem SortedFrom.mono {starts starts' : Pdu → Bool} (h : ∀ ev, starts ev = true → starts' ev = true) {x : EventId}
    (hx : SortedFrom store full starts x) : SortedFrom store full starts' x := by
  obtain ⟨y, ev, hy, hf, hst, hr⟩ := hx
  exact ⟨y, ev, hy, hf, h ev hst, hr⟩

theorem mem_graphKeys_iff (hmem : ∀ x, x ∈ conflicted ↔ full x) {starts : Pdu → Bool} {eventsToSort : List EventId}
    (hstart : ∀ x, x ∈ eventsToSort ↔ x ∈ conflicted ∧ (store.fetch x).any starts = true) (x : EventId) :
    x ∈ graphKeys store conflicted eventsToSort ↔ SortedFrom store full starts x := by
  have hedge : (fun a b => b ∈ edgesIn store conflicted a) = fun a b => b ∈ authEventsOf store a ∧ full b := by
    funext a b
    rw [mem_edgesIn, hmem]
  unfold SortedFrom
  rw [mem_graphKeys, ← hedge]
  constructor
  · rintro ⟨y, hy, hr⟩
    obtain ⟨hyc, hany⟩ := (hstart y).mp hy
    obtain ⟨ev, hf, hst⟩ := (Option.any_eq_true _ _).mp hany
    exact ⟨y, ev, (hmem y).mp hyc, hf, hst, hr⟩
  · rintro ⟨y, ev, hy, hf, hst, hr⟩
    exact ⟨y, (hstart y).mpr ⟨(hmem y).mpr hy, (Option.any_eq_true _ _).mpr ⟨ev, hf, hst⟩⟩, hr⟩

theorem SortedFrom.inFull {starts : Pdu → Bool} {x : EventId} (h : SortedFrom store full starts x) : full x := by
  obtain ⟨y, ev, hy, -, -, hr⟩ := h
  cases hr with
  | refl => exact hy
  | tail _ hb => exact hb.2

theorem runAll_context (context : PowerLevelsContentFields) (caches : PlCaches) (ids : List EventId)
    (schedule : List Nat) :
    (Prog.runAll schedule (ids.map (getPowerLevelForSender c store (some context))) caches).1 =
      ids.map (levelIn c store (some context)) := by
  have hpool : Prog.PoolSafe (fun _ => True) (fun _ _ => True)
    (fun x level _ => level = levelIn c store (some context) x)
      ids (ids.map (getPowerLevelForSender c store (some context))) caches := by
    refine List.forall₂_map_right_iff.mpr (List.forall₂_same.mpr fun x _ => ?_)
    have hret : getPowerLevelForSender c store (some context) x = .ret (levelIn c store (some context) x) := by
      unfold getPowerLevelForSender levelIn
      cases store.fetch x <;> rfl
    rw [hret]
    exact fun _ _ _ => rfl
  obtain ⟨-, hf⟩ := Prog.runAll_safe (fun _ => trivial) (fun _ _ _ _ _ => trivial) schedule trivial hpool
  exact eq_map_of_forall₂ hf fun _ _ h => h

variable (hset : LevelsSettled c store (SortedByPower c store version full))
  (htwice : SettledTwice c store version full)
  (hmem : ∀ x, x ∈ conflicted ↔ full x) (hp : conflicted.Perm conflicted')
  (hexist : ∀ x, full x → (store.fetch x).isSome = true)

theorem mem_foundation (ch : Choices) (x : EventId) :
    x ∈ ((ch.perm 6 conflicted).filter fun id => (store.fetch id).any isFoundationEvent) ↔
      x ∈ conflicted ∧ (store.fetch x).any isFoundationEvent = true := by
  rw [List.mem_filter, mem_perm]

theorem mem_controlEvents (ch : Choices) (x : EventId) :
    x ∈ controlEvents c ch store conflicted ↔ x ∈ conflicted ∧ (store.fetch x).any (isPowerEvent c) = true := by
  rw [controlEvents, List.mem_insertionSort, List.mem_filter, mem_perm]

include hset htwice hmem in
theorem control_levels (context : Option PowerLevelsContentFields) {caches₀ : PlCaches}
    (h₀ : TablesBefore c store version full caches₀) : ∃ level, ∀ {conflicted' : List EventId}
    (ch : Choices) {caches},
      (∀ x, x ∈ conflicted' ↔ x ∈ conflicted) → TablesBefore c store version full caches →
      LookupsAnswer c store (controlEvents c ch store conflicted') conflicted' context caches
        level fun _ => True := by
  have hkeys : ∀ {conflicted' : List EventId} (ch : Choices), (∀ x, x ∈ conflicted' ↔ x ∈ conflicted) → ∀ x,
      x ∈ graphKeys store conflicted' (controlEvents c ch store conflicted') ↔
        SortedFrom store full (isPowerEvent c) x := fun ch hc =>
    mem_graphKeys_iff (fun x => (hc x).trans (hmem x)) (mem_controlEvents ch)
  cases context with
  | some context =>
    exact ⟨_, fun ch _ _ _ ids _ _ schedule => ⟨runAll_context context _ ids schedule, trivial⟩⟩
  | none =>
  unfold TablesBefore at h₀ ⊢
  by_cases hv : version = .V2_1
  · simp only [if_pos hv] at h₀ ⊢
    classical
    let parsed : EventId → Bool := fun id =>
      decide (∃ pl, Rules store (SortedByPower c store version full) pl ∧ pl.eventId = id)
    have hparsed : ParsesRulings store (SortedByPower c store version full) parsed := fun id => decide_eq_true_iff
    refine ⟨levelAgain c store caches₀.sender.lookup parsed, fun ch caches hc hfull ids hnd hids schedule =>
      ⟨?_, trivial⟩⟩
    rw [h₀.sender_eq hset hfull]
    exact runAll_again hfull hset (htwice hv) hparsed (fun x hx => hx.mono fun ev => startsSort_of_isPower)
      (fun x hx => (hkeys ch hc x).mp ((hids x).mp hx)) schedule
  · simp only [if_neg hv] at h₀ ⊢
    refine ⟨citedLevel c store, fun ch caches hc hempty ids hnd hids schedule => ⟨?_, trivial⟩⟩
    subst hempty
    have hstarts : startsSort c version = isPowerEvent c := by
      funext ev
      rw [startsSort, if_neg hv]
    refine (runAll_levels hset hnd (fun x => ?_) schedule).1
    rw [hids, hkeys ch hc, SortedByPower, hstarts]

include hset hmem hp hexist

theorem rulingContext_same (hu : SameMap unconflicted unconflicted') (ch ch' : Choices) :
    Agree (fun r r' => r.1 = r'.1 ∧ TablesBefore c store version full r.2 ∧ TablesBefore c store version full r'.2)
      (rulingContext c ch store version v unconflicted conflicted)
      (rulingContext c ch' store version v unconflicted' conflicted') := by
  unfold rulingContext TablesBefore
  by_cases hv : version = .V2_1
  · simp only [if_pos hv]
    unfold subResolve
    have hstarts : startsSort c version = isFoundationEvent := by
      funext ev
      rw [startsSort, if_pos hv]
    have hans : ∀ {conflicted' : List EventId} (ch : Choices), (∀ x, x ∈ conflicted' ↔ x ∈ conflicted) →
        LookupsAnswer c store ((ch.perm 6 conflicted').filter fun id => (store.fetch id).any isFoundationEvent)
          conflicted' none .empty (citedLevel c store)
            (CachesFull c store (SortedByPower c store version full)) := by
      intro conflicted' ch hc ids hnd hids schedule
      refine runAll_levels hset hnd (fun x => ?_) schedule
      rw [hids, mem_graphKeys_iff (fun x => (hc x).trans (hmem x)) (mem_foundation ch), SortedByPower, hstarts]
    obtain ⟨order, after, after', hI, hI', h, h'⟩ := powerSort_same ch ch' 10 (fun _ => hp.mem_iff)
      (fun x => by rw [mem_foundation, mem_foundation, hp.mem_iff])
      (fun x hx => hexist x ((mem_graphKeys_iff hmem (mem_foundation ch) x).mp hx).inFull)
      (hans ch fun _ => Iff.rfl) (hans ch' fun _ => hp.mem_iff.symm)
    have hctx : globalPlContext c store v unconflicted = globalPlContext c store v unconflicted' := by
      funext id
      unfold globalPlContext injectPrivilegedCreators
      rw [hu]
    simp only [h, h', ok_bind]
    refine (Agree.of_eq (R := Eq) (fun _ => rfl) rfl).bind ?_
    rintro resolved _ rfl
    cases resolved.lookup (EventType.roomPowerLevels, "") with
    | some id => exact ⟨by rw [hctx], hI, hI'⟩
    | none => exact ⟨by rw [hctx, hu], hI, hI'⟩
  · simp only [if_neg hv]
    exact ⟨rfl, rfl, rfl⟩

include htwice

theorem sortControl_same (hu : SameMap unconflicted unconflicted') (ch ch' : Choices) :
    Agree Eq (sortControl c ch store version v unconflicted conflicted)
      (sortControl c ch' store version v unconflicted' conflicted') := by
  unfold sortControl
  refine (rulingContext_same hset hmem hp hexist hu ch ch').bind ?_
  rintro ⟨context, caches⟩ ⟨_, caches'⟩ ⟨rfl, hI, hI'⟩
  obtain ⟨level, hlevel⟩ := control_levels hset htwice hmem context hI
  obtain ⟨order, after, after', -, -, h, h'⟩ := powerSort_same ch ch' 20 (fun _ => hp.mem_iff)
    (fun x => by rw [mem_controlEvents, mem_controlEvents, hp.mem_iff])
    (fun x hx => hexist x ((mem_graphKeys_iff hmem (mem_controlEvents ch) x).mp hx).inFull)
    (hlevel ch (fun _ => Iff.rfl) hI) (hlevel ch' (fun _ => hp.mem_iff.symm) hI')
  simp only [h, h']
  exact rfl

theorem resolveConflicted_same (hu : SameMap unconflicted unconflicted') (ch ch' : Choices) :
    Agree SameMap (resolveConflicted c ch store version v unconflicted conflicted)
      (resolveConflicted c ch' store version v unconflicted' conflicted') := by
  unfold resolveConflicted
  refine (sortControl_same hset htwice hmem hp hexist hu ch ch').bind ?_
  rintro sortedControl _ rfl
  have hinit : SameMap (initialState version unconflicted) (initialState version unconflicted') := by
    unfold initialState
    split
    · exact SameMap.refl _
    · exact hu
  refine (iterativeAuthCheck_same sortedControl hinit).bind fun resolved resolved' hr => ?_
  have hleft : eventsToResolve ch conflicted sortedControl = eventsToResolve ch' conflicted' sortedControl := by
    refine insertionSort_perm (List.Perm.filter _ ?_)
    exact (ch.perm_perm 8 conflicted).trans (hp.trans (ch'.perm_perm 8 conflicted').symm)
  rw [hleft, hr]
  refine (Agree.of_eq (fun _ => rfl) rfl).bind ?_
  rintro sortedLeft _ rfl
  exact iterativeAuthCheck_same sortedLeft hr

end

/-! ## Resolution -/

theorem separate_same {sets sets' : List (StateMap EventId)} (h : sets.Perm sets') (ch ch' : Choices) :
    SameMap (separate ch sets).1 (separate ch' sets').1 := by
  intro k
  refine Option.ext fun id => ?_
  have hnil : sets ≠ [] ↔ sets' ≠ [] := by
    rw [← List.length_pos_iff, ← List.length_pos_iff, h.length_eq]
  rw [separate_unconflicted, separate_unconflicted, hnil]
  simp only [h.mem_iff]

theorem ExactChain.setFetch {store : EventStore} {authChainFetch : List EventId → List EventId}
    (h : ExactChain store authChainFetch) : SetFetch authChainFetch := fun hids x => by
  rw [h, h]
  simp only [hids]

/-- The lookups of a sort start with the second one. -/
def secondFirst : Choices := { inOrder with schedule := fun _ => List.replicate 12 1 }

end Congruent
