import Mathlib.Algebra.BigOperators.Group.Finset.Sigma
import Mathlib.Algebra.Order.BigOperators.Group.Finset
import Congruent.AuthDiff

/-!
# The full conflicted set

What is sorted and checked depends on the state sets, the store and the answers
of the fetcher as sets: for version 2 the difference of the auth chains, for
version 2.1 the events between two conflicting ones.
-/

namespace Congruent

def SetFetch (authChainFetch : List EventId → List EventId) : Prop :=
  ∀ {ids ids'}, (∀ x, x ∈ ids ↔ x ∈ ids') → ∀ x, x ∈ authChainFetch ids ↔ x ∈ authChainFetch ids'

section
variable (store : EventStore) (authChainFetch : List EventId → List EventId) (version : StateResolutionVersion)
  (sets : List (StateMap EventId))

/-- An entry in conflict, under any key. -/
def IsConflicting (x : EventId) : Prop := ∃ k, InConflict sets k x

def ForkChain (s : StateMap EventId) (x : EventId) : Prop :=
  ∃ ids, (∀ y, y ∈ ids ↔ ∃ k, s.lookup k = some y ∧ InConflict sets k y) ∧ x ∈ authChainFetch ids

def CitedByConflict (x : EventId) : Prop := ∃ y, IsConflicting sets y ∧ Worklist.Reach (authEventsOf store) y x

def BetweenConflicts (x : EventId) : Prop :=
  CitedByConflict store sets x ∧ ∃ y, IsConflicting sets y ∧ Worklist.Reach (authEventsOf store) x y

def FullConflicted (x : EventId) : Prop :=
  IsStateEvent store x ∧ (IsConflicting sets x ∨
    if version = .V2_1 then BetweenConflicts store sets x else Differs sets (ForkChain authChainFetch sets) x)

def MissingAuth : Prop := ∃ x, CitedByConflict store sets x ∧ store.fetch x = none

end

/-! ## The conflicted subgraph -/

section
variable {store : EventStore} {seeds : List EventId}

def backwardsOf (store : EventStore) (seeds : List EventId) : List EventId :=
  Worklist.visit (authEventsOf store) (searchFuel store seeds) seeds []

/-- The events among `backwards` that cite an event, once for each citation. -/
def childrenIn (store : EventStore) (backwards : List EventId) (id : EventId) : List EventId :=
  backwards.flatMap fun child => (authEventsOf store child).filterMap fun a => if a = id then some child else none

theorem mem_backwardsOf (x : EventId) :
    x ∈ backwardsOf store seeds ↔ ∃ s ∈ seeds, Worklist.Reach (authEventsOf store) s x :=
  Worklist.mem_visit _ _ authEventsOf_nil (searchFuel_enough store seeds) x

theorem mem_childrenIn (backwards : List EventId) (id x : EventId) :
    x ∈ childrenIn store backwards id ↔ x ∈ backwards ∧ id ∈ authEventsOf store x := by
  simp only [childrenIn, List.mem_flatMap, List.mem_filterMap, Option.ite_none_right_eq_some, Option.some.injEq]
  constructor
  · rintro ⟨y, hy, a, ha, rfl, rfl⟩
    exact ⟨hy, ha⟩
  · rintro ⟨hx, ha⟩
    exact ⟨x, hx, id, ha, rfl, rfl⟩

theorem length_childrenIn (backwards : List EventId) (id : EventId) :
    (childrenIn store backwards id).length =
      (backwards.map fun child => (authEventsOf store child).count id).sum := by
  unfold childrenIn
  rw [List.length_flatMap]
  congr 1
  refine List.map_congr_left fun child _ => ?_
  rw [List.length_filterMap_eq_countP, List.count]
  congr 1
  funext a
  by_cases h : a = id <;> simp [h]

theorem backwardsOf_nodup : (backwardsOf store seeds).Nodup := Worklist.visit_nodup _ _ _ _ List.nodup_nil

theorem citations_le {l : List EventId} (hl : l.Nodup) :
    (l.map fun x => (authEventsOf store x).length).sum ≤ (store.events.map (·.authEvents.length)).sum := by
  have hstore : (store.events.map (·.authEvents.length)).sum =
      ∑ x ∈ (store.events.map (·.eventId)).toFinset, (authEventsOf store x).length := by
    rw [List.sum_toFinset _ store.nodup, List.map_map]
    congr 1
    refine List.map_congr_left fun ev hev => ?_
    simp [authEventsOf, fetch_eventId hev]
  rw [hstore, ← List.sum_toFinset _ hl]
  refine Finset.sum_le_sum_of_ne_zero fun x _ hx => ?_
  rw [List.mem_toFinset]
  refine (authEventsOf_nil x).resolve_right fun h => hx ?_
  rw [h, List.length_nil]

theorem childrenIn_fuel :
    seeds.length + Worklist.remaining (childrenIn store (backwardsOf store seeds)) (backwardsOf store seeds) [] ≤
      searchFuel store seeds := by
  have hnd := @backwardsOf_nodup store seeds
  have hcl : ∀ child ∈ backwardsOf store seeds, ∀ a ∈ authEventsOf store child, a ∈ backwardsOf store seeds := by
    intro child hchild a ha
    obtain ⟨s, hs, hr⟩ := (mem_backwardsOf child).mp hchild
    exact (mem_backwardsOf a).mpr ⟨s, hs, hr.tail ha⟩
  have hrem : Worklist.remaining (childrenIn store (backwardsOf store seeds)) (backwardsOf store seeds) [] =
      ((backwardsOf store seeds).map fun x => (authEventsOf store x).length).sum := by
    simp only [Worklist.remaining, List.not_mem_nil, if_false, length_childrenIn]
    simp only [← List.sum_toFinset _ hnd]
    rw [Finset.sum_comm]
    refine Finset.sum_congr rfl fun child hchild => ?_
    have hcount := Multiset.sum_count_eq_card (m := (authEventsOf store child : Multiset EventId))
      fun a ha => List.mem_toFinset.mpr (hcl child (List.mem_toFinset.mp hchild) a ha)
    simpa only [Multiset.coe_count, Multiset.coe_card] using hcount
  rw [hrem]
  exact Nat.add_le_add_left (Nat.le_trans (citations_le hnd) (Nat.le_mul_self _)) _

theorem mem_forwards {x : EventId} (hx : x ∈ backwardsOf store seeds) :
    x ∈ Worklist.visit (childrenIn store (backwardsOf store seeds)) (searchFuel store seeds) seeds [] ↔
      ∃ s ∈ seeds, Worklist.Reach (authEventsOf store) x s := by
  rw [Worklist.mem_visit _ (backwardsOf store seeds) (fun y => ?_) childrenIn_fuel]
  · refine exists_congr fun s => and_congr_right fun _ => ⟨fun h => ?_, fun h => ?_⟩
    · clear hx
      induction h with
      | refl => exact .refl
      | tail _ hb ih => exact Relation.ReflTransGen.head ((mem_childrenIn _ _ _).mp hb).2 ih
    · induction h using Relation.ReflTransGen.head_induction_on with
      | refl => exact .refl
      | head hxy _ ih =>
        obtain ⟨s', hs', hr⟩ := (mem_backwardsOf _).mp hx
        exact Relation.ReflTransGen.tail (ih ((mem_backwardsOf _).mpr ⟨s', hs', hr.tail hxy⟩))
          ((mem_childrenIn _ _ _).mpr ⟨hx, hxy⟩)
  · by_cases hy : childrenIn store (backwardsOf store seeds) y = []
    · exact Or.inr hy
    · obtain ⟨child, hchild⟩ := List.exists_mem_of_ne_nil _ hy
      obtain ⟨hb, ha⟩ := (mem_childrenIn _ _ _).mp hchild
      obtain ⟨s, hs, hr⟩ := (mem_backwardsOf child).mp hb
      exact Or.inl ((mem_backwardsOf y).mpr ⟨s, hs, hr.tail ha⟩)

theorem mem_calculateSubgraph (conflicting : StateMap (List EventId)) (x : EventId) :
    x ∈ (calculateConflictedSubgraph store conflicting).1 ↔
      (∃ s ∈ conflictedIds conflicting, Worklist.Reach (authEventsOf store) s x) ∧
        ∃ s ∈ conflictedIds conflicting, Worklist.Reach (authEventsOf store) x s := by
  have hback := @mem_backwardsOf store (conflictedIds conflicting).dedup x
  simp only [List.mem_dedup] at hback
  show x ∈ (backwardsOf store _).filter
    (fun id => id ∈ Worklist.visit (childrenIn store (backwardsOf store _)) _ _ _) ↔ _
  rw [List.mem_filter, decide_eq_true_eq, ← hback]
  refine and_congr_right fun hx => ?_
  rw [mem_forwards hx]
  simp only [List.mem_dedup]

theorem mem_calculateMissing (conflicting : StateMap (List EventId)) (x : EventId) :
    x ∈ (calculateConflictedSubgraph store conflicting).2 ↔
      (∃ s ∈ conflictedIds conflicting, Worklist.Reach (authEventsOf store) s x) ∧ store.fetch x = none := by
  show x ∈ (backwardsOf store _).filter _ ↔ _
  rw [List.mem_filter, mem_backwardsOf, Option.isNone_iff_eq_none]
  simp only [List.mem_dedup]

end

/-! ## The set as a whole -/

section
variable {ch : Choices} {store : EventStore} {authChainFetch : List EventId → List EventId}
  {sets : List (StateMap EventId)}

theorem mem_seeds (y : EventId) : y ∈ conflictedIds (separate ch sets).2 ↔ IsConflicting sets y :=
  mem_conflictedIds ch sets y

theorem subgraph_missing :
    (calculateConflictedSubgraph store (separate ch sets).2).2 ≠ [] ↔ MissingAuth store sets := by
  refine ⟨fun h => ?_, ?_⟩
  · obtain ⟨x, hx⟩ := List.exists_mem_of_ne_nil _ h
    simp only [mem_calculateMissing, mem_seeds] at hx
    exact ⟨x, hx⟩
  · rintro ⟨x, hx⟩
    refine List.ne_nil_of_mem (a := x) ?_
    simp only [mem_calculateMissing, mem_seeds]
    exact hx

theorem mem_subgraph (x : EventId) :
    x ∈ (calculateConflictedSubgraph store (separate ch sets).2).1 ↔ BetweenConflicts store sets x := by
  rw [mem_calculateSubgraph]
  simp only [mem_seeds]
  rfl

theorem mem_forkDiff (hfetch : SetFetch authChainFetch) (x : EventId) :
    x ∈ getAuthChainDiff (sets.map fun s => authChainFetch (forkConflicts ch (separate ch sets).2 s)) ↔
      Differs sets (ForkChain authChainFetch sets) x := by
  have hchain : ∀ s ∈ sets, x ∈ authChainFetch (forkConflicts ch (separate ch sets).2 s) ↔
      ForkChain authChainFetch sets s x := by
    intro s hs
    constructor
    · exact fun h => ⟨_, mem_forkConflicts hs, h⟩
    · rintro ⟨ids, hids, h⟩
      exact (hfetch (fun y => (hids y).trans (mem_forkConflicts hs y).symm) x).mp h
  exact (mem_chainDiff _ x).trans (differs_congr hchain)

theorem existingState_nodup (ids : List EventId) : (existingState store ids).Nodup := (collect_nodup ids).filter _

theorem allConflicted_spec (ch : Choices) (hfetch : SetFetch authChainFetch) (version : StateResolutionVersion) :
    (version = .V2_1 ∧ MissingAuth store sets ∧
      allConflicted ch store authChainFetch version sets (separate ch sets).2 =
        .error (.invalidPdu "Cannot resolve state with missing auth events")) ∨
    (¬ (version = .V2_1 ∧ MissingAuth store sets) ∧ ∃ conflicted,
      allConflicted ch store authChainFetch version sets (separate ch sets).2 = .ok conflicted ∧
      conflicted.Nodup ∧ ∀ x, x ∈ conflicted ↔ FullConflicted store authChainFetch version sets x) := by
  unfold allConflicted
  by_cases hv : version = .V2_1
  · simp only [hv, if_true, true_and]
    by_cases hm : MissingAuth store sets
    · exact Or.inl ⟨hm, if_pos (subgraph_missing.mpr hm)⟩
    · refine Or.inr ⟨hm, _, if_neg (mt subgraph_missing.mp hm), ?_, fun x => ?_⟩
      · exact (ch.perm_perm 5 _).nodup_iff.mpr (existingState_nodup _)
      · simp only [mem_perm, mem_existingState, List.mem_append, mem_conflictedIds, mem_subgraph, FullConflicted,
          if_true]
        exact and_comm
  · simp only [hv, if_false, false_and, not_false_eq_true, true_and, false_or]
    refine ⟨_, rfl, (ch.perm_perm 5 _).nodup_iff.mpr (existingState_nodup _), fun x => ?_⟩
    simp only [mem_perm, mem_existingState, List.mem_append, mem_conflictedIds, mem_forkDiff hfetch, FullConflicted,
      hv, if_false]
    exact and_comm.trans (and_congr_right fun _ => or_comm)

end

/-! ## Reordered state sets -/

section
variable {store : EventStore} {authChainFetch : List EventId → List EventId} {version : StateResolutionVersion}
  {sets sets' : List (StateMap EventId)}

theorem inConflict_perm (h : sets.Perm sets') (k : TypeStateKey) (x : EventId) :
    InConflict sets k x ↔ InConflict sets' k x := by
  simp only [InConflict, h.mem_iff]

theorem isConflicting_perm (h : sets.Perm sets') (x : EventId) : IsConflicting sets x ↔ IsConflicting sets' x :=
  exists_congr fun k => inConflict_perm h k x

theorem missingAuth_perm (h : sets.Perm sets') : MissingAuth store sets ↔ MissingAuth store sets' := by
  simp only [MissingAuth, CitedByConflict, isConflicting_perm h]

theorem fullConflicted_perm (h : sets.Perm sets') (x : EventId) :
    FullConflicted store authChainFetch version sets x ↔ FullConflicted store authChainFetch version sets' x := by
  simp only [FullConflicted, BetweenConflicts, CitedByConflict, Differs, ForkChain, isConflicting_perm h,
    inConflict_perm h, h.mem_iff]

end

end Congruent
