import Congruent.AuthDiff
import Congruent.SenderLevel

/-!
# The sort by power, in two runs

Where its lookups answer the same levels in all runs, `reverse_topological_power_sort`
gives one order, whatever the order of its events and of the tables it iterates.
-/

namespace Congruent

theorem length_collect_le {α : Type} [DecidableEq α] (l : List α) : (collect l).length ≤ l.length :=
  (List.subperm_of_subset (collect_nodup l) fun x hx => (mem_collect l x).mp hx).length_le

/-! ## The graph -/

section
variable {store : EventStore} {authDiff eventsToSort : List EventId}

def edgesIn (store : EventStore) (authDiff : List EventId) (id : EventId) : List EventId :=
  collect ((authEventsOf store id).filter (· ∈ authDiff))

theorem mem_edgesIn (id x : EventId) : x ∈ edgesIn store authDiff id ↔ x ∈ authEventsOf store
    id ∧ x ∈ authDiff := by
  rw [edgesIn, mem_collect, List.mem_filter, decide_eq_true_eq]

def graphKeys (store : EventStore) (authDiff eventsToSort : List EventId) : List EventId :=
  Worklist.visit (edgesIn store authDiff) (searchFuel store eventsToSort) eventsToSort []

theorem powerGraph_eq :
    powerGraph store authDiff eventsToSort =
      (graphKeys store authDiff eventsToSort).map fun id => (id, edgesIn store authDiff id) :=
  rfl

theorem length_edgesIn_le (id : EventId) : (edgesIn store authDiff id).length ≤ (authEventsOf store id).length :=
  Nat.le_trans (length_collect_le _) (List.length_filter_le _ _)

theorem edgesIn_fuel :
    eventsToSort.length + Worklist.remaining (edgesIn store authDiff) (store.events.map (·.eventId)) [] ≤
      searchFuel store eventsToSort := by
  refine Nat.le_trans (Nat.add_le_add_left ?_ _) (searchFuel_enough store eventsToSort)
  unfold Worklist.remaining
  simp only [List.not_mem_nil, if_false]
  exact List.sum_le_sum fun id _ => length_edgesIn_le id

theorem mem_graphKeys (x : EventId) :
    x ∈ graphKeys store authDiff eventsToSort ↔
      ∃ s ∈ eventsToSort, Worklist.Reach (edgesIn store authDiff) s x := by
  refine Worklist.mem_visit _ _ (fun y => (authEventsOf_nil y).imp_right fun h => ?_) edgesIn_fuel x
  rw [edgesIn, h]
  rfl

theorem graphKeys_edge {x y : EventId} (hx : x ∈ graphKeys store authDiff eventsToSort)
    (hy : y ∈ edgesIn store authDiff x) : y ∈ graphKeys store authDiff eventsToSort := by
  obtain ⟨s, hs, hr⟩ := (mem_graphKeys x).mp hx
  exact (mem_graphKeys y).mpr ⟨s, hs, hr.tail hy⟩

theorem lookup_tabulated {α β : Type} [DecidableEq α] (f : α → β) (x : α) : ∀ (l : List α),
    List.lookup x (l.map fun a => (a, f a)) = if x ∈ l then some (f x) else none
  | [] => by simp
  | a :: l => by
    rw [List.map_cons, List.lookup_cons, lookup_tabulated f x l]
    by_cases h : x = a
    · simp [h]
    · simp [h, beq_false_of_ne h]

theorem lookup_powerGraph {x : EventId} (hx : x ∈ graphKeys store authDiff eventsToSort) :
    (List.lookup x (powerGraph store authDiff eventsToSort)).getD [] = edgesIn store authDiff x := by
  rw [powerGraph_eq, lookup_tabulated, if_pos hx, Option.getD_some]

theorem mem_graphIds_power (ch : Choices) (site : Nat) (x : EventId) :
    x ∈ graphIds ch site (powerGraph store authDiff eventsToSort) ↔ x ∈ graphKeys store authDiff eventsToSort := by
  rw [mem_graphIds]
  constructor
  · rintro ⟨p, hp, hx⟩
    obtain ⟨y, hy, rfl⟩ := List.mem_map.mp (powerGraph_eq ▸ hp)
    rcases hx with rfl | hx
    · exact hy
    · exact graphKeys_edge hy hx
  · intro hx
    exact ⟨(x, edgesIn store authDiff x), powerGraph_eq ▸ List.mem_map.mpr ⟨x, hx, rfl⟩, Or.inl rfl⟩

end

/-! ## One run -/

theorem mapM_eq_map {ε α β : Type} {f : α → Except ε β} {g : α → β} : ∀ {l : List α},
    (∀ x ∈ l, f x = .ok (g x)) → l.mapM f = .ok (l.map g)
  | [], _ => rfl
  | a :: l, h => by
    rw [List.mapM_cons, h a List.mem_cons_self, mapM_eq_map fun x hx => h x (List.mem_cons_of_mem _ hx)]
    rfl

section
variable {c : Codec} {store : EventStore} {authDiff eventsToSort : List EventId}
  {context : Option PowerLevelsContentFields}

def levelKey (store : EventStore) (level : EventId → Int) (id : EventId) : PowerKey :=
  powerKey (level id) ((store.fetch id).map (·.originServerTs) |>.getD 0) id

theorem levelKey_inj {level : EventId → Int} (x y : EventId) (h : levelKey store level x = levelKey store level y) :
    x = y := by
  have h₁ := congrArg (fun k : PowerKey => (ofLex (ofLex k).2).2) h
  exact h₁

/-- The node every run makes of an event, up to the order of its parents. -/
def levelNode (ch : Choices) (site : Nat) (store : EventStore) (level : EventId → Int) (authDiff : List EventId)
    (id : EventId) : Node EventId PowerKey :=
  ⟨id, ch.perm site (edgesIn store authDiff id), levelKey store level id⟩

theorem eventToKey_levels {level : EventId → Int} {ids : List EventId} {id : EventId} {ev : Pdu} (hid : id ∈ ids)
    (hf : store.fetch id = some ev) :
    eventToKey store (ids.zip (ids.map level)) id = .ok (level id, ev.originServerTs) := by
  unfold eventToKey
  rw [← List.map_prod_left_eq_zip, lookup_tabulated, if_pos hid, hf]

theorem graphKeys_nodup : (graphKeys store authDiff eventsToSort).Nodup :=
  Worklist.visit_nodup _ _ _ _ List.nodup_nil

def LookupsAnswer (c : Codec) (store : EventStore) (eventsToSort authDiff : List EventId)
    (context : Option PowerLevelsContentFields) (caches : PlCaches) (level : EventId → Int)
    (after : PlCaches → Prop) : Prop :=
  ∀ ids : List EventId, ids.Nodup → (∀ x, x ∈ ids ↔ x ∈ graphKeys store authDiff eventsToSort) →
    ∀ schedule : List Nat,
      (Prog.runAll schedule (ids.map (getPowerLevelForSender c store context)) caches).1 = ids.map level ∧
        after (Prog.runAll schedule (ids.map (getPowerLevelForSender c store context)) caches).2

variable {caches : PlCaches} {level : EventId → Int} {after : PlCaches → Prop}

theorem powerSort_eq (ch : Choices) (site : Nat)
    (hans : LookupsAnswer c store eventsToSort authDiff context caches level after)
    (hexist : ∀ x ∈ graphKeys store authDiff eventsToSort, (store.fetch x).isSome = true) :
    ∃ caches', after caches' ∧
      reverseTopologicalPowerSort c ch site store eventsToSort authDiff context caches =
        .ok (kahnSort ((graphIds ch (site + 1) (powerGraph store authDiff eventsToSort)).map
          (levelNode ch (site + 3) store level authDiff)), caches') := by
  have hkeys : (powerGraph store authDiff eventsToSort).map (·.1) = graphKeys store authDiff eventsToSort := by
    rw [powerGraph_eq, List.map_map]
    exact List.map_id _
  have hids : ∀ id, id ∈ ch.perm site ((powerGraph store authDiff eventsToSort).map (·.1)) ↔
      id ∈ graphKeys store authDiff eventsToSort := fun id => by rw [mem_perm, hkeys]
  obtain ⟨hlevels, hafter⟩ := hans (ch.perm site ((powerGraph store authDiff eventsToSort).map (·.1)))
    ((ch.perm_perm site _).nodup_iff.mpr (hkeys ▸ graphKeys_nodup)) hids (ch.schedule site)
  have hnode : ∀ id ∈ graphIds ch (site + 1) (powerGraph store authDiff eventsToSort),
      sortNode ch (site + 3) (powerGraph store authDiff eventsToSort)
        (eventToKey store ((ch.perm site ((powerGraph store authDiff eventsToSort).map (·.1))).zip
          ((ch.perm site ((powerGraph store authDiff eventsToSort).map (·.1))).map level))) id =
        .ok (levelNode ch (site + 3) store level authDiff id) := by
    intro id hid
    have hkey := (mem_graphIds_power ch (site + 1) id).mp hid
    obtain ⟨ev, hf⟩ := Option.isSome_iff_exists.mp (hexist id hkey)
    unfold sortNode levelNode levelKey
    rw [eventToKey_levels ((hids id).mpr hkey) hf, lookup_powerGraph hkey, hf]
    rfl
  refine ⟨_, hafter, ?_⟩
  unfold reverseTopologicalPowerSort lexicographicalTopologicalSort
  simp only [hlevels, mapM_eq_map hnode]
  rfl

end

/-! ## Two runs -/

section
variable {c : Codec} {store : EventStore} {authDiff authDiff' eventsToSort eventsToSort' : List EventId}

theorem graphKeys_congr (hd : ∀ x, x ∈ authDiff ↔ x ∈ authDiff') (he : ∀ x, x ∈ eventsToSort ↔ x ∈ eventsToSort')
    (x : EventId) : x ∈ graphKeys store authDiff eventsToSort ↔ x ∈ graphKeys store authDiff' eventsToSort' := by
  have hedge : ∀ a b, b ∈ edgesIn store authDiff a ↔ b ∈ edgesIn store authDiff' a := fun a b => by
    rw [mem_edgesIn, mem_edgesIn, hd]
  rw [mem_graphKeys, mem_graphKeys]
  unfold Worklist.Reach
  simp only [hedge, he]

variable {context : Option PowerLevelsContentFields} {caches caches' : PlCaches} {level : EventId → Int}
  {after after' : PlCaches → Prop}

/-- Two runs over the same events with the same levels give the same order. -/
theorem powerSort_same (ch ch' : Choices) (site : Nat) (hd : ∀ x, x ∈ authDiff ↔ x ∈ authDiff')
    (he : ∀ x, x ∈ eventsToSort ↔ x ∈ eventsToSort')
    (hexist : ∀ x ∈ graphKeys store authDiff eventsToSort, (store.fetch x).isSome = true)
    (hans : LookupsAnswer c store eventsToSort authDiff context caches level after)
    (hans' : LookupsAnswer c store eventsToSort' authDiff' context caches' level after') :
    ∃ order s s', after s ∧ after' s' ∧
      reverseTopologicalPowerSort c ch site store eventsToSort authDiff context caches = .ok (order, s) ∧
      reverseTopologicalPowerSort c ch' site store eventsToSort' authDiff' context caches' = .ok (order, s') := by
  have hkeys := @graphKeys_congr store _ _ _ _ hd he
  obtain ⟨s, hs, h₁⟩ := powerSort_eq ch site hans hexist
  obtain ⟨s', hs', h₂⟩ := powerSort_eq ch' site hans' fun x hx => hexist x ((hkeys x).mpr hx)
  refine ⟨_, s, s', hs, hs', h₁, ?_⟩
  rw [h₂]
  refine congrArg (fun order => Except.ok (order, s')) ?_
  have hnode : ∀ (ch : Choices) (ids d : List EventId),
      ((ids.map (levelNode ch (site + 3) store level d)).map (·.id)) = ids := fun ch ids d => by
    rw [List.map_map]
    exact List.map_id ids
  refine @kahnSort_congr _ _ _ _ _ _ ?_ ?_ (levelKey store level) ?_ ?_ (fun _ _ _ _ h => levelKey_inj _ _ h) ?_ ?_
  · rw [hnode]; exact collect_nodup _
  · rw [hnode]; exact collect_nodup _
  · intro n hn
    obtain ⟨id, -, rfl⟩ := List.mem_map.mp hn
    rfl
  · intro n hn
    obtain ⟨id, -, rfl⟩ := List.mem_map.mp hn
    rfl
  · intro x
    unfold IsNode
    rw [hnode, hnode, mem_graphIds_power, mem_graphIds_power]
    exact (hkeys x).symm
  · intro x p
    have hparent : ∀ (ch : Choices) (ids d : List EventId),
        IsParent (ids.map (levelNode ch (site + 3) store level d)) x p ↔
          x ∈ ids ∧ p ∈ authEventsOf store x ∧ p ∈ d := by
      intro ch ids d
      simp only [IsParent, List.mem_map, exists_exists_and_eq_and, levelNode, mem_perm, mem_edgesIn]
      constructor
      · rintro ⟨a, ha, rfl, hp⟩
        exact ⟨ha, hp⟩
      · rintro ⟨ha, hp⟩
        exact ⟨x, ha, rfl, hp⟩
    rw [hparent, hparent, mem_graphIds_power, mem_graphIds_power, hkeys, hd]

end

end Congruent
