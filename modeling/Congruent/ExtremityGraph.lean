import Congruent.KeyedMap
import Congruent.Worklist
import Mathlib.Algebra.Order.BigOperators.Group.List
import Mathlib.Algebra.Order.Group.Nat

/-!
# The graph of accepted events

The parents of an accepted event are found by a walk through the events that are not
accepted but stand between accepted ones (`accepted_extremity_graph`).
-/

namespace Congruent.ExtremityGraph

abbrev ShortEventId := Nat

abbrev RawEdges := AList fun _ : ShortEventId => List ShortEventId

/-- The walk through bridge events: `none` when `fuel` pops do not end it. -/
def bridgeWalk (rawEdges : RawEdges) (bridgeEvents : List ShortEventId) :
    (fuel : Nat) → (stack seen parents : List ShortEventId) → Option (List ShortEventId)
  | 0, _, _, _ => none
  | _ + 1, [], _, parents => some parents
  | n + 1, prev :: stack, seen, parents =>
    if prev ∈ seen then bridgeWalk rawEdges bridgeEvents n stack seen parents
    else if prev ∈ bridgeEvents then
      match rawEdges.lookup prev with
      | some prevs => bridgeWalk rawEdges bridgeEvents n (prevs.reverse ++ stack) (prev :: seen) parents
      | none => bridgeWalk rawEdges bridgeEvents n stack (prev :: seen) parents
    else bridgeWalk rawEdges bridgeEvents n stack (prev :: seen) (parents ++ [prev])

def acceptedRow (fuel : Nat) (rawEdges : RawEdges) (bridgeEvents : List ShortEventId) (shortId : ShortEventId) :
    Option (ShortEventId × List ShortEventId) :=
  (bridgeWalk rawEdges bridgeEvents fuel ((rawEdges.lookup shortId).getD []).reverse [] []).map fun parents =>
    (shortId, parents)

def acceptedExtremityGraph (fuel : Nat) (rawEdges : RawEdges) (acceptedEvents bridgeEvents : List ShortEventId) :
    Option (List (ShortEventId × List ShortEventId)) :=
  acceptedEvents.mapM (acceptedRow fuel rawEdges bridgeEvents)

/-! ## What the walk finds -/

/-- `p` is reachable from `e` along prev edges, with none but bridge events between. -/
inductive ThroughBridges (prevs : ShortEventId → List ShortEventId) (isBridge : ShortEventId → Prop) :
    ShortEventId → ShortEventId → Prop
  | edge {e p : ShortEventId} (h : p ∈ prevs e) : ThroughBridges prevs isBridge e p
  | bridge {e b p : ShortEventId} (h : b ∈ prevs e) (hb : isBridge b) (hp : ThroughBridges prevs isBridge b p) :
      ThroughBridges prevs isBridge e p

def CalculatedTip (prevs : ShortEventId → List ShortEventId) (isAccepted isBridge : ShortEventId → Prop)
    (e : ShortEventId) : Prop :=
  isAccepted e ∧ ∀ a, isAccepted a → ¬(¬isBridge e ∧ ThroughBridges prevs isBridge a e)

section
variable (rawEdges : RawEdges) (bridgeEvents : List ShortEventId)

def prevsOf (id : ShortEventId) : List ShortEventId := (rawEdges.lookup id).getD []

def bridgePrevs (id : ShortEventId) : List ShortEventId := if id ∈ bridgeEvents then prevsOf rawEdges id else []

/-- The search behind the walk: prev events are popped in their reverse order. -/
def visited (n : Nat) (stack seen : List ShortEventId) : List ShortEventId :=
  Worklist.visitBy (bridgePrevs rawEdges bridgeEvents) (fun prevs stack => prevs.reverse ++ stack) n stack seen

variable {rawEdges bridgeEvents}

theorem bridgePrevs_nil (id : ShortEventId) : id ∈ rawEdges.keys ∨ bridgePrevs rawEdges bridgeEvents id = [] := by
  by_cases h : id ∈ rawEdges
  · exact Or.inl h
  · refine Or.inr ?_
    unfold bridgePrevs prevsOf
    rw [AList.lookup_eq_none.mpr h]
    split <;> rfl

theorem bridgeWalk_step {n : Nat} {prev : ShortEventId} {stack seen parents : List ShortEventId} (h : prev ∉ seen) :
    bridgeWalk rawEdges bridgeEvents (n + 1) (prev :: stack) seen parents =
      bridgeWalk rawEdges bridgeEvents n ((bridgePrevs rawEdges bridgeEvents prev).reverse ++ stack) (prev :: seen)
        (if prev ∈ bridgeEvents then parents else parents ++ [prev]) := by
  rw [bridgeWalk, if_neg h]
  unfold bridgePrevs prevsOf
  by_cases hb : prev ∈ bridgeEvents
  · simp only [if_pos hb]
    cases rawEdges.lookup prev <;> rfl
  · simp only [if_neg hb]
    rfl

theorem push_perm (prevs stack : List ShortEventId) : (prevs.reverse ++ stack).Perm (prevs ++ stack) :=
  (List.reverse_perm prevs).append_right stack

/-- The parents, as the walk collects them. -/
def parentsAmong (bridgeEvents seen : List ShortEventId) : List ShortEventId :=
  (seen.filter fun id => id ∉ bridgeEvents).reverse

theorem bridgeWalk_eq (n : Nat) (stack seen : List ShortEventId)
    (hn : stack.length + Worklist.remaining (bridgePrevs rawEdges bridgeEvents) rawEdges.keys seen < n) :
    bridgeWalk rawEdges bridgeEvents n stack seen (parentsAmong bridgeEvents seen) =
      some (parentsAmong bridgeEvents (visited rawEdges bridgeEvents n stack seen)) := by
  induction n generalizing stack seen with
  | zero => omega
  | succ n ih =>
    cases stack with
    | nil => rfl
    | cons prev stack =>
      rw [List.length_cons] at hn
      by_cases h : prev ∈ seen
      · have hv : visited rawEdges bridgeEvents (n + 1) (prev :: stack) seen =
            visited rawEdges bridgeEvents n stack seen := by
          simp [visited, Worklist.visitBy, h]
        rw [bridgeWalk, if_pos h, hv, ih stack seen (by omega)]
      · have hv : visited rawEdges bridgeEvents (n + 1) (prev :: stack) seen =
            visited rawEdges bridgeEvents n ((bridgePrevs rawEdges bridgeEvents prev).reverse ++ stack)
              (prev :: seen) := by
          simp [visited, Worklist.visitBy, h]
        have hrem := Worklist.remaining_cons (bridgePrevs rawEdges bridgeEvents) h (bridgePrevs_nil prev)
        have hparents : (if prev ∈ bridgeEvents then parentsAmong bridgeEvents seen
            else parentsAmong bridgeEvents seen ++ [prev]) = parentsAmong bridgeEvents (prev :: seen) := by
          unfold parentsAmong
          by_cases hb : prev ∈ bridgeEvents
          · simp [hb]
          · simp [hb]
        rw [bridgeWalk_step h, hparents, hv]
        refine ih _ _ ?_
        rw [List.length_append, List.length_reverse]
        omega

theorem throughBridges_iff (e p : ShortEventId) : ThroughBridges (prevsOf rawEdges) (· ∈ bridgeEvents) e p ↔
    ∃ s ∈ prevsOf rawEdges e, Worklist.Reach (bridgePrevs rawEdges bridgeEvents) s p := by
  constructor
  · intro h
    induction h with
    | edge h => exact ⟨_, h, .refl⟩
    | bridge h hb _ ih =>
      obtain ⟨s, hs, hr⟩ := ih
      refine ⟨_, h, Relation.ReflTransGen.head ?_ hr⟩
      rw [bridgePrevs, if_pos hb]
      exact hs
  · rintro ⟨s, hs, hr⟩
    induction hr using Relation.ReflTransGen.head_induction_on generalizing e with
    | refl => exact .edge hs
    | @head b c hbc _ ih =>
      unfold bridgePrevs at hbc
      split at hbc
      · rename_i hb
        exact .bridge hs hb (ih b hbc)
      · cases hbc

/-- The fuel in which the walks from some events end. -/
def walkSteps (rawEdges : RawEdges) (acceptedEvents bridgeEvents : List ShortEventId) : Nat :=
  1 + (acceptedEvents.map fun id => (prevsOf rawEdges id).length).sum +
    Worklist.remaining (bridgePrevs rawEdges bridgeEvents) rawEdges.keys []

theorem acceptedRow_exact {acceptedEvents : List ShortEventId} {fuel : Nat}
    (hfuel : walkSteps rawEdges acceptedEvents bridgeEvents ≤ fuel) {e : ShortEventId} (he : e ∈ acceptedEvents) :
    ∃ parents, acceptedRow fuel rawEdges bridgeEvents e = some (e, parents) ∧
      ∀ p, p ∈ parents ↔ p ∉ bridgeEvents ∧ ThroughBridges (prevsOf rawEdges) (· ∈ bridgeEvents) e p := by
  have hlen : (prevsOf rawEdges e).length ≤ (acceptedEvents.map fun id => (prevsOf rawEdges id).length).sum :=
    List.single_le_sum (fun _ _ => Nat.zero_le _) _ (List.mem_map.mpr ⟨e, he, rfl⟩)
  have hn : (prevsOf rawEdges e).reverse.length +
      Worklist.remaining (bridgePrevs rawEdges bridgeEvents) rawEdges.keys [] < fuel := by
    unfold walkSteps at hfuel
    rw [List.length_reverse]
    omega
  refine ⟨parentsAmong bridgeEvents (visited rawEdges bridgeEvents fuel (prevsOf rawEdges e).reverse []), ?_, ?_⟩
  · unfold acceptedRow
    have hwalk := bridgeWalk_eq fuel (prevsOf rawEdges e).reverse [] hn
    rw [show parentsAmong bridgeEvents [] = [] from rfl] at hwalk
    rw [← prevsOf, hwalk, Option.map_some]
  · intro p
    rw [parentsAmong, List.mem_reverse, List.mem_filter, decide_eq_true_eq, and_comm, throughBridges_iff, visited,
      Worklist.mem_visitBy _ push_perm rawEdges.keys bridgePrevs_nil (Nat.le_of_lt hn)]
    simp only [List.mem_reverse]

end

/-! ## The calculated tips -/

/-- What finding the forward extremities of a graph returns: the events that are nobody's
parent. -/
def FindsTips (findForwardExtremities : List (ShortEventId × List ShortEventId) → List ShortEventId) : Prop :=
  ∀ graph x, x ∈ findForwardExtremities graph ↔ x ∈ graph.map (·.1) ∧ ∀ row ∈ graph, x ∉ row.2

theorem mapM_rows {row : ShortEventId → Option (ShortEventId × List ShortEventId)}
    {P : ShortEventId → List ShortEventId → Prop} (l : List ShortEventId)
    (h : ∀ e ∈ l, ∃ parents, row e = some (e, parents) ∧ P e parents) :
    ∃ graph, l.mapM row = some graph ∧ graph.map (·.1) = l ∧ ∀ r ∈ graph, P r.1 r.2 := by
  induction l with
  | nil => exact ⟨[], rfl, rfl, fun _ h => absurd h List.not_mem_nil⟩
  | cons e l ih =>
    obtain ⟨parents, hrow, hP⟩ := h e List.mem_cons_self
    obtain ⟨graph, hgraph, hkeys, hrows⟩ := ih fun x hx => h x (List.mem_cons_of_mem e hx)
    refine ⟨(e, parents) :: graph, ?_, ?_, ?_⟩
    · rw [List.mapM_cons, hrow, hgraph]
      rfl
    · rw [List.map_cons, hkeys]
    · intro r hr
      rcases List.mem_cons.mp hr with rfl | hr
      · exact hP
      · exact hrows r hr

theorem exists_graph {rawEdges : RawEdges} {acceptedEvents bridgeEvents : List ShortEventId} {fuel : Nat}
    (hfuel : walkSteps rawEdges acceptedEvents bridgeEvents ≤ fuel) :
    ∃ graph, acceptedExtremityGraph fuel rawEdges acceptedEvents bridgeEvents = some graph ∧
      graph.map (·.1) = acceptedEvents ∧ ∀ row ∈ graph, ∀ p,
        p ∈ row.2 ↔ p ∉ bridgeEvents ∧ ThroughBridges (prevsOf rawEdges) (· ∈ bridgeEvents) row.1 p :=
  mapM_rows acceptedEvents (P := fun e parents => ∀ p,
      p ∈ parents ↔ p ∉ bridgeEvents ∧ ThroughBridges (prevsOf rawEdges) (· ∈ bridgeEvents) e p)
    fun _ he => acceptedRow_exact hfuel he

theorem mem_findForwardExtremities {rawEdges : RawEdges} {acceptedEvents bridgeEvents : List ShortEventId}
    {graph : List (ShortEventId × List ShortEventId)} (hkeys : graph.map (·.1) = acceptedEvents)
    (hrows : ∀ row ∈ graph, ∀ p,
      p ∈ row.2 ↔ p ∉ bridgeEvents ∧ ThroughBridges (prevsOf rawEdges) (· ∈ bridgeEvents) row.1 p)
    {findForwardExtremities : List (ShortEventId × List ShortEventId) → List ShortEventId}
    (htips : FindsTips findForwardExtremities) (e : ShortEventId) :
    e ∈ findForwardExtremities graph ↔
      CalculatedTip (prevsOf rawEdges) (· ∈ acceptedEvents) (· ∈ bridgeEvents) e := by
  rw [htips, hkeys]
  refine and_congr_right fun _ => ⟨fun h a ha hparent => ?_, fun h row hrow hmem => ?_⟩
  · rw [← hkeys] at ha
    obtain ⟨row, hrow, rfl⟩ := List.mem_map.mp ha
    exact h row hrow ((hrows row hrow e).mpr hparent)
  · exact h row.1 (hkeys ▸ List.mem_map.mpr ⟨row, hrow, rfl⟩) ((hrows row hrow e).mp hmem)

/-- Every walk ends, on every graph. The parents of an accepted event are the events that are
no bridge and reachable through bridge events only, accepted or not. A calculated tip is an
accepted event that no accepted event, itself included, has among its parents. -/
theorem acceptedExtremityGraph_exact (rawEdges : RawEdges) (acceptedEvents bridgeEvents : List ShortEventId) :
    ∃ n, ∀ fuel, n ≤ fuel → ∃ graph,
      acceptedExtremityGraph fuel rawEdges acceptedEvents bridgeEvents = some graph ∧
      graph.map (·.1) = acceptedEvents ∧
      (∀ row ∈ graph, ∀ p,
        p ∈ row.2 ↔ p ∉ bridgeEvents ∧ ThroughBridges (prevsOf rawEdges) (· ∈ bridgeEvents) row.1 p) ∧
      ∀ findForwardExtremities, FindsTips findForwardExtremities → ∀ e ∈ acceptedEvents,
        (e ∈ findForwardExtremities graph ↔
          ∀ a ∈ acceptedEvents,
            ¬(e ∉ bridgeEvents ∧ ThroughBridges (prevsOf rawEdges) (· ∈ bridgeEvents) a e)) := by
  refine ⟨walkSteps rawEdges acceptedEvents bridgeEvents, fun fuel hfuel => ?_⟩
  obtain ⟨graph, hgraph, hkeys, hrows⟩ := exists_graph hfuel
  refine ⟨graph, hgraph, hkeys, hrows, fun tips htips e he => ?_⟩
  rw [mem_findForwardExtremities hkeys hrows htips]
  exact and_iff_right he

/-- Event 1 comes after the outlier 2. Event 3 comes after the bridge 4, which comes after it. -/
def loopEdges : RawEdges := AList.insert 1 [2] (AList.insert 3 [4] (AList.insert 4 [3] ∅))

def childless (graph : List (ShortEventId × List ShortEventId)) : List ShortEventId :=
  (graph.map (·.1)).filter fun x => graph.all fun row => x ∉ row.2

theorem childless_findsTips : FindsTips childless := by
  intro graph x
  rw [childless, List.mem_filter, List.all_eq_true]
  simp only [decide_eq_true_eq]

theorem acceptedExtremityGraph_exact_loop : ∃ n, ∀ fuel, n ≤ fuel → ∃ graph,
    acceptedExtremityGraph fuel loopEdges [1, 3] [4] = some graph ∧
      (1 ∈ childless graph ↔ ∀ a ∈ [1, 3], ¬(1 ∉ [4] ∧ ThroughBridges (prevsOf loopEdges) (· ∈ [4]) a 1)) := by
  obtain ⟨n, h⟩ := acceptedExtremityGraph_exact loopEdges [1, 3] [4]
  refine ⟨n, fun fuel hfuel => ?_⟩
  obtain ⟨graph, hgraph, -, -, htips⟩ := h fuel hfuel
  exact ⟨graph, hgraph, htips childless childless_findsTips 1 (by decide)⟩

/-- An outlier is among the parents of an accepted event. An event that is its own parent
around a cycle is no tip, although no other accepted event has it as a parent. -/
theorem parent_not_accepted :
    acceptedExtremityGraph 9 loopEdges [1, 3] [4] = some [(1, [2]), (3, [3])] ∧
      ∀ findForwardExtremities, FindsTips findForwardExtremities →
        3 ∉ findForwardExtremities [(1, [2]), (3, [3])] := by
  refine ⟨by decide, fun tips htips h => ?_⟩
  exact ((htips _ _).mp h).2 (3, [3]) (by decide) (by decide)

end Congruent.ExtremityGraph
