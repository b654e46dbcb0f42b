import Congruent.Greedy
import Congruent.TimelineData

/-!
# The repair sort (`topo_sort_by_prev_events` of `timeline/backfill.rs`)

The events of a repair are sorted by their previous events before their depths are
computed again. The in-degree of an event counts the events of the batch that cite it, and
what is pushed after it are these too: the queue starts from the events that nothing
cites, finds no child of theirs, and leaves the other events as the map lists them.
-/

namespace Congruent.PrevSort

open TimelineData (PduId)

/-- The events to repair, with their positions. -/
abbrev Pdus := BTreeMap EventId (PduId × Pdu)

/-- `children` and `in_degree`. -/
structure Degrees where
  children : BTreeMap EventId (List EventId)
  inDegree : BTreeMap EventId Nat

/-- `usize::saturating_add(1)`. -/
def saturatingInc (count : Nat) : Nat := min (count + 1) 18446744073709551615

def addPrev (eventId : EventId) (g : Degrees) (prevId : EventId) : Degrees :=
  match g.inDegree.lookup prevId with
  | some count =>
    { inDegree := g.inDegree.insert prevId (saturatingInc count)
      children := g.children.insert prevId ((g.children.lookup prevId).getD [] ++ [eventId]) }
  | none => g

def zeros (ids : List EventId) : BTreeMap EventId Nat := ids.foldl (fun m id => m.insert id 0) ∅

def build (pdus : Pdus) : Degrees :=
  pdus.entries.foldl (fun g e => e.2.2.prevEvents.foldl (addPrev e.1) g) ⟨∅, zeros pdus.keys⟩

def release (st : BTreeMap EventId Nat × List EventId) (child : EventId) : BTreeMap EventId Nat × List EventId :=
  match st.1.lookup child with
  | some count => (st.1.insert child (count - 1), if count - 1 = 0 then st.2 ++ [child] else st.2)
  | none => st

/-- The loop. The events visited are those that were pushed to `ordered`. -/
def drain (children : BTreeMap EventId (List EventId)) : (fuel : Nat) → (inDegree : BTreeMap EventId Nat) →
    (queue ordered : List EventId) → Option (List EventId)
  | 0, _, _, _ => none
  | _ + 1, _, [], ordered => some ordered
  | fuel + 1, inDegree, eventId :: queue, ordered =>
    if eventId ∈ ordered then drain children fuel inDegree queue ordered
    else
      let st := ((children.lookup eventId).getD []).foldl release (inDegree, queue)
      drain children fuel st.1 st.2 (ordered ++ [eventId])

/-- The sort; `iter` is the order in which the map of the in-degrees is read. -/
def topoSortByPrevEvents (fuel : Nat) (pdus : Pdus) (iter : List EventId) : Option (List EventId) :=
  let g := build pdus
  let queue := iter.filter fun id => g.inDegree.lookup id = some 0
  (drain g.children fuel g.inDegree queue []).map fun ordered =>
    if ordered.length < pdus.keys.length then ordered ++ pdus.keys.filter fun id => id ∉ ordered else ordered

/-! ## The graph of the batch -/

/-- `p` is a previous event of `e`, both in the batch. -/
def Cites (pdus : Pdus) (e p : EventId) : Prop := ∃ v, pdus.lookup e = some v ∧ p ∈ v.2.prevEvents ∧ p ∈ pdus

def Acyclic (pdus : Pdus) : Prop := ∀ e, ¬Relation.TransGen (Cites pdus) e e

/-- Every event comes after its previous events in the batch. -/
def PrevsFirst (pdus : Pdus) (order : List EventId) : Prop :=
  ∀ pre e post, order = pre ++ e :: post → ∀ p, Cites pdus e p → p ∈ pre

variable {pdus : Pdus}

theorem Cites.mem {e p : EventId} (h : Cites pdus e p) : e ∈ pdus := by
  obtain ⟨v, hv, -⟩ := h
  exact AList.lookup_isSome.mp (by rw [hv]; rfl)

/-- Where something is cited and nothing is its own ancestor, there is an event that cites and
is not cited. -/
theorem exists_tip (hac : Acyclic pdus) {e p : EventId} (h : Cites pdus e p) :
    ∃ x, (∃ q, Cites pdus x q) ∧ ∀ y, ¬Cites pdus y x := by
  by_contra hnot
  push Not at hnot
  have hstop : ∀ x, ¬Greedy.Ready (fun x => ∃ q, Cites pdus x q) (fun x y => Cites pdus y x) [] x := by
    rintro x ⟨hx, -, hdone⟩
    obtain ⟨y, hy⟩ := hnot x hx
    exact absurd (hdone y hy ⟨x, hy⟩) List.not_mem_nil
  obtain ⟨y, -, hyy⟩ := Greedy.behind_of_left (U := pdus.keys) (fun x ⟨q, hx⟩ => AList.mem_keys.mpr hx.mem) hstop
    ⟨p, h⟩ List.not_mem_nil
  have hback : Relation.TransGen (Function.swap (Cites pdus)) y y :=
    Relation.TransGen.mono (fun a b hab => hab.2.1) _ _ hyy
  exact hac y (Relation.transGen_swap.mp hback)

/-! ## The in-degrees -/

def mentions (pdus : Pdus) : List (EventId × EventId) :=
  pdus.entries.flatMap fun e => e.2.2.prevEvents.map fun p => (e.1, p)

theorem build_eq (pdus : Pdus) :
    build pdus = (mentions pdus).foldl (fun g m => addPrev m.1 g m.2) ⟨∅, zeros pdus.keys⟩ := by
  simp only [build, mentions, List.foldl_flatMap, List.foldl_map]

theorem mem_mentions {e p : EventId} :
    (e, p) ∈ mentions pdus ↔ ∃ v, pdus.lookup e = some v ∧ p ∈ v.2.prevEvents := by
  simp only [mentions, List.mem_flatMap, List.mem_map]
  constructor
  · rintro ⟨⟨e', v⟩, hv, p', hp, heq⟩
    cases heq
    exact ⟨v, AList.mem_lookup_iff.mpr hv, hp⟩
  · rintro ⟨v, hv, hp⟩
    exact ⟨⟨e, v⟩, AList.mem_lookup_iff.mp hv, p, hp, rfl⟩

theorem lookup_zeros (p : EventId) (ids : List EventId) :
    (zeros ids).lookup p = if p ∈ ids then some 0 else none := by
  have hgo : ∀ (ids : List EventId) (m : BTreeMap EventId Nat),
      (ids.foldl (fun m id => m.insert id 0) m).lookup p = if p ∈ ids then some 0 else m.lookup p := by
    intro ids
    induction ids with
    | nil => exact fun m => rfl
    | cons id ids ih =>
      intro m
      rw [List.foldl_cons, ih]
      by_cases hp : p = id
      · subst hp
        simp
      · simp [hp, AList.lookup_insert_ne hp]
  exact hgo ids ∅

section
variable {p : EventId}

theorem addPrev_inDegree (g : Degrees) (m : EventId × EventId) :
    (addPrev m.1 g m.2).inDegree.lookup p =
      (g.inDegree.lookup p).map fun c => if m.2 = p then saturatingInc c else c := by
  unfold addPrev
  cases hl : g.inDegree.lookup m.2 with
  | none =>
    by_cases hp : m.2 = p
    · subst hp
      rw [hl]
      rfl
    · simp [hp]
  | some count =>
    by_cases hp : m.2 = p
    · subst hp
      simp [hl]
    · simp [hp, AList.lookup_insert_ne (Ne.symm hp)]

theorem addPrev_children (g : Degrees) {m : EventId × EventId} (hp : m.2 ≠ p) :
    (addPrev m.1 g m.2).children.lookup p = g.children.lookup p := by
  unfold addPrev
  split
  · exact AList.lookup_insert_ne (Ne.symm hp)
  · rfl

theorem foldl_inDegree : ∀ (ms : List (EventId × EventId)) (g : Degrees) (c : Nat), g.inDegree.lookup p = some c →
    ((ms.foldl (fun g m => addPrev m.1 g m.2) g).inDegree.lookup p = some 0 ↔ c = 0 ∧ ∀ m ∈ ms, m.2 ≠ p)
  | [], g, c, h => by simp [h]
  | m :: ms, g, c, h => by
    rw [List.foldl_cons,
      foldl_inDegree ms _ (if m.2 = p then saturatingInc c else c) (by rw [addPrev_inDegree, h]; rfl)]
    by_cases hp : m.2 = p
    · simp [hp, saturatingInc]
    · simp [hp]

theorem foldl_inDegree_none : ∀ (ms : List (EventId × EventId)) (g : Degrees), g.inDegree.lookup p = none →
    (ms.foldl (fun g m => addPrev m.1 g m.2) g).inDegree.lookup p = none
  | [], _, h => h
  | m :: ms, g, h => foldl_inDegree_none ms _ (by rw [addPrev_inDegree, h]; rfl)

theorem foldl_children : ∀ (ms : List (EventId × EventId)) (g : Degrees), (∀ m ∈ ms, m.2 ≠ p) →
    (ms.foldl (fun g m => addPrev m.1 g m.2) g).children.lookup p = g.children.lookup p
  | [], _, _ => rfl
  | m :: ms, g, h => by
    rw [List.foldl_cons, foldl_children ms _ fun m' hm' => h m' (List.mem_cons_of_mem _ hm')]
    exact addPrev_children g (h m List.mem_cons_self)

theorem inDegree_zero_iff : (build pdus).inDegree.lookup p = some 0 ↔ p ∈ pdus ∧ ∀ e, ¬Cites pdus e p := by
  rw [build_eq]
  by_cases hp : p ∈ pdus
  · have hzero : (zeros pdus.keys).lookup p = some 0 := by rw [lookup_zeros, if_pos (AList.mem_keys.mp hp)]
    rw [foldl_inDegree (mentions pdus) ⟨∅, zeros pdus.keys⟩ 0 hzero]
    constructor
    · rintro ⟨-, hms⟩
      refine ⟨hp, ?_⟩
      rintro e ⟨v, hv, hprev, -⟩
      exact hms (e, p) (mem_mentions.mpr ⟨v, hv, hprev⟩) rfl
    · rintro ⟨-, hnone⟩
      refine ⟨rfl, ?_⟩
      rintro ⟨e, q⟩ hm rfl
      obtain ⟨v, hv, hprev⟩ := mem_mentions.mp hm
      exact hnone e ⟨v, hv, hprev, hp⟩
  · have hnone : (zeros pdus.keys).lookup p = none := by rw [lookup_zeros, if_neg (mt AList.mem_keys.mpr hp)]
    rw [foldl_inDegree_none (mentions pdus) ⟨∅, zeros pdus.keys⟩ hnone]
    simp [hp]

theorem children_of_tip (h : (build pdus).inDegree.lookup p = some 0) : (build pdus).children.lookup p = none := by
  obtain ⟨hp, hnone⟩ := inDegree_zero_iff.mp h
  rw [build_eq, foldl_children]
  · exact AList.lookup_empty p
  · rintro ⟨e, q⟩ hm rfl
    obtain ⟨v, hv, hprev⟩ := mem_mentions.mp hm
    exact hnone e ⟨v, hv, hprev, hp⟩

end

/-! ## The order -/

theorem drain_tips {children : BTreeMap EventId (List EventId)} : ∀ (fuel : Nat) (inDegree : BTreeMap EventId Nat)
    (queue ordered : List EventId), (∀ x ∈ queue, children.lookup x = none) → (ordered ++ queue).Nodup →
    queue.length < fuel → drain children fuel inDegree queue ordered = some (ordered ++ queue)
  | fuel + 1, inDegree, [], ordered, _, _, _ => by rw [drain, List.append_nil]
  | fuel + 1, inDegree, x :: queue, ordered, hq, hn, hf => by
    have hx : x ∉ ordered := fun hx => List.disjoint_of_nodup_append hn hx List.mem_cons_self
    rw [drain, if_neg hx, hq x List.mem_cons_self]
    simp only [Option.getD_none, List.foldl_nil]
    have hsnoc : ordered ++ [x] ++ queue = ordered ++ x :: queue := by simp
    rw [drain_tips fuel inDegree queue (ordered ++ [x]) (fun y hy => hq y (List.mem_cons_of_mem _ hy)) (hsnoc ▸ hn)
      (by simpa using hf), hsnoc]

def tips (pdus : Pdus) (iter : List EventId) : List EventId :=
  iter.filter fun id => (build pdus).inDegree.lookup id = some 0

section
variable {iter : List EventId} (hiter : iter.Perm pdus.keys)
include hiter

theorem nodup_tips : (tips pdus iter).Nodup := (hiter.nodup_iff.mpr pdus.keys_nodup).filter _

theorem mem_tips {x : EventId} : x ∈ tips pdus iter ↔ x ∈ pdus ∧ ∀ e, ¬Cites pdus e x := by
  rw [tips, List.mem_filter, decide_eq_true_eq, hiter.mem_iff, ← AList.mem_keys, inDegree_zero_iff]
  exact and_iff_right_of_imp And.left

theorem topoSort_eq {fuel : Nat} (hf : pdus.keys.length < fuel) :
    topoSortByPrevEvents fuel pdus iter =
      some (tips pdus iter ++ pdus.keys.filter fun id => id ∉ tips pdus iter) := by
  have hlen : (tips pdus iter).length ≤ pdus.keys.length := hiter.length_eq ▸ List.length_filter_le _ _
  have hdrain : drain (build pdus).children fuel (build pdus).inDegree (tips pdus iter) [] =
      some (tips pdus iter) := by
    refine drain_tips fuel _ _ [] (fun x hx => ?_) (nodup_tips hiter) (by omega)
    exact children_of_tip (of_decide_eq_true (List.mem_filter.mp hx).2)
  unfold topoSortByPrevEvents
  simp only
  rw [← tips, hdrain, Option.map_some]
  split
  · rfl
  · rename_i hall
    -- every event is there, so the filter finds none
    have hsub : (tips pdus iter).Perm pdus.keys :=
      ((nodup_tips hiter).subperm fun x hx => AList.mem_keys.mp ((mem_tips hiter).mp hx).1).perm_of_length_le
        (by omega)
    have hnil : (pdus.keys.filter fun id => id ∉ tips pdus iter) = [] :=
      List.filter_eq_nil_iff.mpr fun x hx => by simpa using hsub.mem_iff.mpr hx
    rw [hnil, List.append_nil]

theorem order_perm : (tips pdus iter ++ pdus.keys.filter fun id => id ∉ tips pdus iter).Perm pdus.keys := by
  refine (List.perm_ext_iff_of_nodup ?_ pdus.keys_nodup).mpr fun x => ?_
  · refine List.Nodup.append (nodup_tips hiter) (pdus.keys_nodup.filter _) fun x hx hx' => ?_
    exact of_decide_eq_true (List.mem_filter.mp hx').2 hx
  · rw [List.mem_append, List.mem_filter, decide_eq_true_eq]
    constructor
    · rintro (hx | ⟨hx, -⟩)
      · exact AList.mem_keys.mp ((mem_tips hiter).mp hx).1
      · exact hx
    · exact fun hx => (em (x ∈ tips pdus iter)).imp_right fun h => ⟨hx, h⟩

/-- The repair sort gives every event once. It puts previous events first just where there are
none in the batch: of an acyclic batch with an edge, an event that nothing cites comes before
one that it cites. -/
theorem topo_sort_by_prev_events_iff :
    ∃ order, (∀ fuel, pdus.keys.length < fuel → topoSortByPrevEvents fuel pdus iter = some order) ∧
      order.Perm pdus.keys ∧
      ((Acyclic pdus → PrevsFirst pdus order) ↔ (Acyclic pdus → ∀ e p, ¬Cites pdus e p)) := by
  refine ⟨_, fun fuel hf => topoSort_eq hiter hf, order_perm hiter, fun h hac e p hep => ?_, fun h hac => ?_⟩
  · obtain ⟨x, ⟨q, hxq⟩, hx⟩ := exists_tip hac hep
    have hmem : x ∈ tips pdus iter := (mem_tips hiter).mpr ⟨hxq.mem, hx⟩
    obtain ⟨pre, post, hsplit⟩ := List.append_of_mem hmem
    have hq : q ∈ pre := h hac pre x (post ++ pdus.keys.filter fun id => id ∉ tips pdus iter)
      (by rw [hsplit]; simp) q hxq
    have hqtip : q ∈ tips pdus iter := by rw [hsplit]; exact List.mem_append_left _ hq
    exact ((mem_tips hiter).mp hqtip).2 x hxq
  · exact fun pre e post _ p hep => absurd hep (h hac e p)

end

def topicAfter (id : EventId) (prevEvents : List EventId) : PduId × Pdu :=
  (⟨1, 1⟩, ⟨id, none, "@alice:a", 0, .other "m.room.topic", .null, some "", prevEvents, 1, [], none, false⟩)

def replied : Pdus := AList.insert "$a" (topicAfter "$a" []) (AList.insert "$b" (topicAfter "$b" ["$a"]) ∅)

theorem topo_sort_by_prev_events_iff_replied :
    ∃ order, (∀ fuel, 2 < fuel → topoSortByPrevEvents fuel replied ["$b", "$a"] = some order) ∧
      order.Perm replied.keys ∧
      ((Acyclic replied → PrevsFirst replied order) ↔ (Acyclic replied → ∀ e p, ¬Cites replied e p)) := by
  have hiter : ["$b", "$a"].Perm replied.keys := by decide
  exact topo_sort_by_prev_events_iff hiter

theorem cites_replied {e p : EventId} (h : Cites replied e p) : e = "$b" ∧ p = "$a" := by
  obtain ⟨v, hv, hp, -⟩ := h
  have hm : (e, p) ∈ mentions replied := mem_mentions.mpr ⟨v, hv, hp⟩
  have hone : mentions replied = [("$b", "$a")] := by decide
  rw [hone, List.mem_singleton] at hm
  exact Prod.mk.inj hm

/-- The second event comes out before the first. -/
theorem replied_before_its_prev :
    topoSortByPrevEvents 3 replied ["$a", "$b"] = some ["$b", "$a"] ∧ Acyclic replied ∧
      ¬PrevsFirst replied ["$b", "$a"] := by
  refine ⟨by decide, fun e hee => ?_, fun h => ?_⟩
  · obtain ⟨x, hex, -⟩ := Relation.TransGen.head'_iff.mp hee
    obtain ⟨y, -, hye⟩ := Relation.TransGen.tail'_iff.mp hee
    exact absurd ((cites_replied hex).1.symm.trans (cites_replied hye).2) (by decide)
  · exact absurd (h [] "$b" ["$a"] rfl "$a" ⟨_, rfl, List.mem_cons_self, by decide⟩) List.not_mem_nil

end Congruent.PrevSort
