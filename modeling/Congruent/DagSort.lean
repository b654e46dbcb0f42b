import Mathlib.Data.Prod.Lex
import Mathlib.Data.String.Basic
import Congruent.Event
import Congruent.KahnSort

/-!
# The topological sort of the DAG

`sort_topologically` of `matrix/dag.rs`: ordered maps by event id, an ordered set of
the events without pending parents, and the events on cycles appended by time and
id. It is Kahn's algorithm again, and gives the list that `kahn_sort` gives with
the key `(origin_server_ts, event_id)`.
-/

namespace Congruent

open Greedy

/-- `(origin_server_ts, event_id)`. -/
abbrev TsKey := Lex (Nat × EventId)

def tsKey (ev : Pdu) : TsKey := toLex (ev.originServerTs, ev.eventId)

/-- An ordered map is iterated by its keys. -/
def byEventId {V : Type} (m : BTreeMap EventId V) : List (EventId × V) :=
  (m.entries.map fun e => (e.1, e.2)).insertionSort fun a b => a.1 ≤ b.1

def insertKey (k : TsKey) (s : List TsKey) : List TsKey := if k ∈ s then s else s.orderedInsert (· ≤ ·) k

/-- `in_degree` and `adjacency_list`. -/
structure DagGraph where
  inDegree : BTreeMap EventId Nat
  adjacencyList : BTreeMap EventId (List EventId)

def collectEvents (events : List Pdu) : BTreeMap EventId Pdu := events.foldl (fun m ev => m.insert ev.eventId ev) ∅

def addEdge (eventsById : BTreeMap EventId Pdu) (id : EventId) (g : DagGraph) (prev : EventId) : DagGraph :=
  if prev ∈ eventsById then
    { adjacencyList := g.adjacencyList.insert prev ((g.adjacencyList.lookup prev).getD [] ++ [id])
      inDegree := g.inDegree.insert id ((g.inDegree.lookup id).getD 0 + 1) }
  else g

def buildGraph (events : List Pdu) : DagGraph :=
  let eventsById := collectEvents events
  let zeros := events.foldl (fun m ev => m.insert ev.eventId 0) ∅
  (byEventId eventsById).foldl (fun g e => e.2.prevEvents.foldl (addEdge eventsById e.1) g) ⟨zeros, ∅⟩

def zeroInDegree (eventsById : BTreeMap EventId Pdu) (inDegree : BTreeMap EventId Nat) : List TsKey :=
  (byEventId inDegree).foldl (fun s e =>
    if e.2 = 0 then
      match eventsById.lookup e.1 with
      | some ev => insertKey (toLex (ev.originServerTs, e.1)) s
      | none => s
    else s) []

/-- One edge out of a sorted event. -/
def visitNeighbor (eventsById : BTreeMap EventId Pdu) (st : BTreeMap EventId Nat × List TsKey)
    (neighbor : EventId) :
    BTreeMap EventId Nat × List TsKey :=
  match st.1.lookup neighbor with
  | none => st
  | some degree =>
    let inDegree := st.1.insert neighbor (degree - 1)
    if degree - 1 = 0 then
      match eventsById.lookup neighbor with
      | some ev => (inDegree, insertKey (toLex (ev.originServerTs, neighbor)) st.2)
      | none => (inDegree, st.2)
    else (inDegree, st.2)

/-- The loop; at the end the sorted events and those that remain. -/
def drainZero (adjacencyList : BTreeMap EventId (List EventId)) : (fuel : Nat) →
    (eventsById : BTreeMap EventId Pdu) →
    (inDegree : BTreeMap EventId Nat) → (zero : List TsKey) → (sorted : List Pdu) → List Pdu × BTreeMap EventId Pdu
  | 0, eventsById, _, _, sorted => (sorted, eventsById)
  | _ + 1, eventsById, _, [], sorted => (sorted, eventsById)
  | fuel + 1, eventsById, inDegree, first :: zero, sorted =>
    let id := (ofLex first).2
    let sorted := sorted ++ (eventsById.lookup id).toList
    let eventsById := eventsById.erase id
    let st := ((adjacencyList.lookup id).getD []).foldl (visitNeighbor eventsById) (inDegree, zero)
    drainZero adjacencyList fuel eventsById st.1 st.2 sorted

/-- At most one pop for each event and for each edge. -/
def sortFuel (events : List Pdu) : Nat := events.length + (events.map fun ev => ev.prevEvents.length).sum

def sortTopologically (events : List Pdu) : List Pdu :=
  let eventsById := collectEvents events
  let g := buildGraph events
  let (sorted, eventsById) :=
    drainZero g.adjacencyList (sortFuel events) eventsById g.inDegree (zeroInDegree eventsById g.inDegree) []
  sorted ++ ((byEventId eventsById).map (·.2)).insertionSort fun a b => tsKey a ≤ tsKey b

/-! ## The maps -/

section
variable {V : Type} (m : BTreeMap EventId V)

theorem byEventId_perm : (byEventId m).Perm (m.entries.map fun e => (e.1, e.2)) := List.perm_insertionSort _ _

theorem mem_byEventId (k : EventId) (v : V) : (k, v) ∈ byEventId m ↔ m.lookup k = some v := by
  rw [(byEventId_perm m).mem_iff, List.mem_map, ← Option.mem_def, AList.mem_lookup_iff]
  constructor
  · rintro ⟨⟨k, v⟩, he, rfl, rfl⟩
    exact he
  · exact fun h => ⟨⟨k, v⟩, h, rfl⟩

theorem byEventId_keys_nodup : ((byEventId m).map (·.1)).Nodup := by
  rw [((byEventId_perm m).map _).nodup_iff, List.map_map]
  exact m.nodupKeys

theorem byEventId_nodup : (byEventId m).Nodup := List.Nodup.of_map _ (byEventId_keys_nodup m)

end

theorem mem_insertKey (k x : TsKey) (s : List TsKey) : x ∈ insertKey k s ↔ x = k ∨ x ∈ s := by
  unfold insertKey
  split
  · rename_i h
    exact ⟨Or.inr, fun hx => hx.elim (fun hx => hx ▸ h) id⟩
  · exact List.mem_orderedInsert _

theorem sorted_insertKey (k : TsKey) {s : List TsKey} (h : s.Pairwise (· < ·)) : (insertKey k s).Pairwise
    (· < ·) := by
  unfold insertKey
  split
  · exact h
  · rename_i hk
    have hle : (s.orderedInsert (· ≤ ·) k).Pairwise (· ≤ ·) := (h.imp le_of_lt).orderedInsert k s
    have hne : (s.orderedInsert (· ≤ ·) k).Nodup :=
      (List.perm_orderedInsert _ k s).nodup_iff.mpr (List.nodup_cons.mpr ⟨hk, h.imp ne_of_lt⟩)
    exact (hle.and hne).imp fun h => lt_of_le_of_ne h.1 h.2

theorem length_insertKey (k : TsKey) (s : List TsKey) : (insertKey k s).length ≤ s.length + 1 := by
  unfold insertKey
  split
  · exact Nat.le_succ _
  · rw [List.orderedInsert_length]

def eventOf (events : List Pdu) (x : EventId) : Option Pdu := events.find? fun ev => ev.eventId = x

theorem lookup_foldl_insert {V : Type} (f : Pdu → V) (x : EventId) : ∀ (l : List Pdu) (m : BTreeMap EventId V),
    (l.map (·.eventId)).Nodup →
    (l.foldl (fun m ev => m.insert ev.eventId (f ev)) m).lookup x = ((eventOf l x).map f).or (m.lookup x)
  | [], _, _ => rfl
  | ev :: l, m, hn => by
    obtain ⟨hnot, hn⟩ := List.nodup_cons.mp hn
    rw [List.foldl_cons, lookup_foldl_insert f x l _ hn, eventOf, eventOf, List.find?_cons]
    by_cases hx : ev.eventId = x
    · subst hx
      have hnone : l.find? (fun e => e.eventId = ev.eventId) = none :=
        List.find?_eq_none.mpr fun e he hid => hnot (List.mem_map.mpr ⟨e, he, by simpa using hid⟩)
      simp [hnone]
    · simp [hx, AList.lookup_insert_ne (Ne.symm hx)]

section
variable {events : List Pdu} (hn : (events.map (·.eventId)).Nodup)
include hn

theorem eventOf_eq_some {x : EventId} {ev : Pdu} : eventOf events x = some ev ↔ ev ∈ events ∧ ev.eventId = x := by
  constructor
  · intro h
    exact ⟨List.mem_of_find?_eq_some h, by simpa using List.find?_some h⟩
  · rintro ⟨hev, rfl⟩
    cases hf : eventOf events ev.eventId with
    | none => simpa using List.find?_eq_none.mp hf ev hev
    | some ev' =>
      have hid : ev'.eventId = ev.eventId := by simpa using List.find?_some hf
      rw [List.inj_on_of_nodup_map hn (List.mem_of_find?_eq_some hf) hev hid]

theorem lookup_collectEvents (x : EventId) : (collectEvents events).lookup x = eventOf events x := by
  rw [collectEvents, lookup_foldl_insert (fun ev => ev) x events ∅ hn, Option.map_id', AList.lookup_empty,
    Option.or_none]

theorem mem_collectEvents (x : EventId) : x ∈ collectEvents events ↔ x ∈ events.map (·.eventId) := by
  rw [← AList.lookup_isSome, lookup_collectEvents hn, Option.isSome_iff_exists, List.mem_map]
  exact exists_congr fun ev => eventOf_eq_some hn

theorem collectEvents_perm : ((byEventId (collectEvents events)).map (·.2)).Perm events := by
  have hev : ∀ e ∈ byEventId (collectEvents events), e.2 ∈ events ∧ e.2.eventId = e.1 := by
    rintro ⟨x, ev⟩ he
    rw [mem_byEventId, lookup_collectEvents hn] at he
    exact (eventOf_eq_some hn).mp he
  refine (List.perm_ext_iff_of_nodup ?_ (List.Nodup.of_map _ hn)).mpr fun ev => ?_
  · refine List.Nodup.map_on (fun e he e' he' h => Prod.ext ?_ h) (byEventId_nodup _)
    rw [← (hev e he).2, ← (hev e' he').2, h]
  · rw [List.mem_map]
    constructor
    · rintro ⟨e, he, rfl⟩
      exact (hev e he).1
    · intro h
      refine ⟨(ev.eventId, ev), ?_, rfl⟩
      rw [mem_byEventId, lookup_collectEvents hn]
      exact (eventOf_eq_some hn).mpr ⟨h, rfl⟩

end

/-! ## The edges -/

/-- The edges of the batch, the citing event first, in the order they are filed. -/
def dagEdges (events : List Pdu) : List (EventId × EventId) :=
  (byEventId (collectEvents events)).flatMap fun e =>
    (e.2.prevEvents.filter (· ∈ collectEvents events)).map fun prev => (e.1, prev)

def fileEdge (g : DagGraph) (e : EventId × EventId) : DagGraph :=
  { adjacencyList := g.adjacencyList.insert e.2 ((g.adjacencyList.lookup e.2).getD [] ++ [e.1])
    inDegree := g.inDegree.insert e.1 ((g.inDegree.lookup e.1).getD 0 + 1) }

theorem buildGraph_eq (events : List Pdu) :
    buildGraph events =
      (dagEdges events).foldl fileEdge ⟨events.foldl (fun m ev => m.insert ev.eventId 0) ∅, ∅⟩ := by
  simp only [buildGraph, dagEdges, List.foldl_flatMap, List.foldl_map, List.foldl_filter]
  congr 1
  funext g e
  congr 1
  funext g prev
  simp only [addEdge, fileEdge, decide_eq_true_eq]

theorem adjacency_foldl (p : EventId) : ∀ (edges : List (EventId × EventId)) (g : DagGraph),
    ((edges.foldl fileEdge g).adjacencyList.lookup p).getD [] =
      (g.adjacencyList.lookup p).getD [] ++ (edges.filter fun e => e.2 = p).map (·.1)
  | [], g => by simp
  | e :: edges, g => by
    rw [List.foldl_cons, adjacency_foldl p edges, List.filter_cons]
    by_cases hp : e.2 = p
    · subst hp
      simp [fileEdge]
    · simp [fileEdge, hp, AList.lookup_insert_ne (Ne.symm hp)]

theorem inDegree_foldl (x : EventId) : ∀ (edges : List (EventId × EventId)) (g : DagGraph) (d : Nat),
    g.inDegree.lookup x = some d →
    (edges.foldl fileEdge g).inDegree.lookup x = some (d + edges.countP fun e => e.1 = x)
  | [], g, d, h => by simpa using h
  | e :: edges, g, d, h => by
    rw [List.foldl_cons, List.countP_cons]
    by_cases hx : e.1 = x
    · subst hx
      rw [inDegree_foldl e.1 edges (fileEdge g e) (d + 1) (by simp [fileEdge, h])]
      simp only [decide_true, if_true, Option.some.injEq]
      omega
    · rw [inDegree_foldl x edges (fileEdge g e) d (by simp [fileEdge, AList.lookup_insert_ne (Ne.symm hx), h])]
      simp [hx]

theorem sum_single {α : Type} (f : α → EventId) (g : α → Nat) : ∀ (l : List α), (l.map f).Nodup → ∀ a ∈ l,
    (l.map fun b => if f b = f a then g b else 0).sum = g a
  | b :: l, hn, a, ha => by
    obtain ⟨hnot, hn⟩ := List.nodup_cons.mp hn
    rw [List.map_cons, List.sum_cons]
    rcases List.mem_cons.mp ha with rfl | ha
    · rw [if_pos rfl, List.sum_eq_zero, Nat.add_zero]
      intro x hx
      obtain ⟨b, hb, rfl⟩ := List.mem_map.mp hx
      exact if_neg fun h => hnot (List.mem_map.mpr ⟨b, hb, h⟩)
    · rw [if_neg fun h => hnot (List.mem_map.mpr ⟨a, ha, h.symm⟩), Nat.zero_add, sum_single f g l hn a ha]

section
variable {events : List Pdu} (hn : (events.map (·.eventId)).Nodup)
include hn

theorem countP_dagEdges {ev : Pdu} (hev : ev ∈ events) (q : EventId → Bool) :
    ((dagEdges events).countP fun e => e.1 = ev.eventId && q e.2) =
      (ev.prevEvents.filter (· ∈ events.map (·.eventId))).countP q := by
  have hmem : (ev.eventId, ev) ∈ byEventId (collectEvents events) := by
    rw [mem_byEventId, lookup_collectEvents hn]
    exact (eventOf_eq_some hn).mpr ⟨hev, rfl⟩
  rw [← sum_single (·.1) (fun e => (e.2.prevEvents.filter (· ∈ events.map (·.eventId))).countP q) _
    (byEventId_keys_nodup _) _ hmem, dagEdges, List.countP_flatMap]
  congr 1
  refine List.map_congr_left fun e _ => ?_
  simp only [Function.comp_apply, List.countP_map, mem_collectEvents hn]
  by_cases he : e.1 = ev.eventId
  · rw [if_pos he]
    refine List.countP_congr fun p _ => ?_
    simp [he]
  · rw [if_neg he, List.countP_eq_zero]
    simp [he]

theorem length_dagEdges_le : (dagEdges events).length ≤ (events.map fun ev => ev.prevEvents.length).sum := by
  rw [dagEdges, List.length_flatMap, ← ((collectEvents_perm hn).map _).sum_eq, List.map_map]
  refine List.sum_le_sum fun e _ => ?_
  rw [List.length_map]
  exact List.length_filter_le _ _

end

/-! ## The neighbors of a sorted event -/

section
variable {eventsById : BTreeMap EventId Pdu}

theorem visitNeighbor_degree (st : BTreeMap EventId Nat × List TsKey) (c x : EventId) :
    (visitNeighbor eventsById st c).1.lookup x = (st.1.lookup x).map fun d => if x = c then d - 1 else d := by
  unfold visitNeighbor
  cases hl : st.1.lookup c with
  | none =>
    by_cases hx : x = c
    · subst hx
      simp [hl]
    · simp [hx]
  | some d =>
    have hfst : ∀ zero : List TsKey,
      (((st.1.insert c (d - 1), zero) : BTreeMap EventId Nat × List TsKey).1).lookup x =
        (st.1.lookup x).map fun d => if x = c then d - 1 else d := by
      intro zero
      by_cases hx : x = c
      · subst hx
        simp [hl]
      · simp [hx, AList.lookup_insert_ne hx]
    simp only
    split
    · cases eventsById.lookup c <;> exact hfst _
    · exact hfst _

/-- The key under which an event that is not sorted yet is put to the ready ones. -/
def readyKey (eventsById : BTreeMap EventId Pdu) (x : EventId) : Option TsKey :=
  (eventsById.lookup x).map fun ev => toLex (ev.originServerTs, x)

variable (eventsById) in
theorem visitNeighbor_zero (st : BTreeMap EventId Nat × List TsKey) (c : EventId) :
    (visitNeighbor eventsById st c).2 = st.2 ∨
      ∃ k, readyKey eventsById c = some k ∧ (visitNeighbor eventsById st c).2 = insertKey k st.2 := by
  unfold visitNeighbor readyKey
  cases st.1.lookup c with
  | none => exact Or.inl rfl
  | some d =>
    simp only
    split
    · cases eventsById.lookup c with
      | none => exact Or.inl rfl
      | some ev => exact Or.inr ⟨_, rfl, rfl⟩
    · exact Or.inl rfl

theorem mem_visitNeighbor (st : BTreeMap EventId Nat × List TsKey) (c : EventId) {x : EventId} {k : TsKey}
    (hk : readyKey eventsById x = some k) :
    k ∈ (visitNeighbor eventsById st c).2 ↔ k ∈ st.2 ∨ x = c ∧ (st.1.lookup x).any (· ≤ 1) = true := by
  obtain ⟨ev, hev, rfl⟩ := Option.map_eq_some_iff.mp hk
  unfold visitNeighbor
  by_cases hx : x = c
  · subst hx
    cases hl : st.1.lookup x with
    | none => simp
    | some d =>
      by_cases hd : d - 1 = 0
      · have hle : d ≤ 1 := by omega
        simp only [hd, if_true, hev, mem_insertKey, Option.any_some, hle, decide_true, and_self, or_comm]
      · have hle : ¬ d ≤ 1 := by omega
        simp [hd, hle]
  · have hother : ∀ ev', (toLex (ev.originServerTs, x) : TsKey) ≠ toLex (ev', c) := fun ev' h =>
      hx (congrArg Prod.snd (toLex.injective h))
    simp only [hx, false_and, or_false]
    cases st.1.lookup c with
    | none => rfl
    | some d =>
      simp only
      split
      · cases eventsById.lookup c with
        | none => rfl
        | some ev' => simp [mem_insertKey, hother]
      · rfl

theorem foldl_visit_degree (x : EventId) : ∀ (cs : List EventId) (st : BTreeMap EventId Nat × List TsKey),
    (cs.foldl (visitNeighbor eventsById) st).1.lookup x = (st.1.lookup x).map (· - cs.count x)
  | [], st => by simp
  | c :: cs, st => by
    rw [List.foldl_cons, foldl_visit_degree x cs, visitNeighbor_degree, Option.map_map, List.count_cons]
    congr 1
    funext d
    by_cases hx : x = c
    · subst hx
      simp only [Function.comp_apply, if_true, beq_self_eq_true]
      omega
    · simp [hx, Ne.symm hx]

theorem mem_foldl_visit {x : EventId} {k : TsKey} (hk : readyKey eventsById x = some k) :
    ∀ (cs : List EventId) (st : BTreeMap EventId Nat × List TsKey),
    k ∈ (cs.foldl (visitNeighbor eventsById) st).2 ↔
      k ∈ st.2 ∨ x ∈ cs ∧ (st.1.lookup x).any (· ≤ cs.count x) = true
  | [], st => by simp
  | c :: cs, st => by
    rw [List.foldl_cons, mem_foldl_visit hk cs, mem_visitNeighbor st c hk, visitNeighbor_degree, List.count_cons]
    cases st.1.lookup x with
    | none => simp
    | some d =>
      by_cases hx : x = c
      · subst hx
        have hcount : x ∉ cs → cs.count x = 0 := List.count_eq_zero_of_not_mem
        simp only [Option.map_some, Option.any_some, decide_eq_true_eq, if_true, beq_self_eq_true, true_and,
          List.mem_cons, true_or]
        by_cases hcs : x ∈ cs
        · rw [or_assoc]
          refine or_congr_right ?_
          simp only [hcs, true_and]
          omega
        · simp only [hcs, false_and, or_false, hcount hcs, Nat.zero_add]
      · simp [hx, Ne.symm hx]

theorem foldl_visit_ready {k : TsKey} : ∀ (cs : List EventId) (st : BTreeMap EventId Nat × List TsKey),
    k ∈ (cs.foldl (visitNeighbor eventsById) st).2 → k ∈ st.2 ∨ ∃ x, readyKey eventsById x = some k
  | [], _, h => Or.inl h
  | c :: cs, st, h => by
    rcases foldl_visit_ready cs _ h with h | h
    · rcases visitNeighbor_zero eventsById st c with he | ⟨k', hk', he⟩ <;> rw [he] at h
      · exact Or.inl h
      · rcases (mem_insertKey k' k st.2).mp h with rfl | h
        · exact Or.inr ⟨c, hk'⟩
        · exact Or.inl h
    · exact Or.inr h

theorem foldl_visit_sorted : ∀ (cs : List EventId) (st : BTreeMap EventId Nat × List TsKey),
    st.2.Pairwise (· < ·) → (cs.foldl (visitNeighbor eventsById) st).2.Pairwise (· < ·)
  | [], _, h => h
  | c :: cs, st, h => by
    refine foldl_visit_sorted cs _ ?_
    rcases visitNeighbor_zero eventsById st c with he | ⟨k, -, he⟩ <;> rw [he]
    · exact h
    · exact sorted_insertKey k h

variable (eventsById) in
theorem length_foldl_visit : ∀ (cs : List EventId) (st : BTreeMap EventId Nat × List TsKey),
    (cs.foldl (visitNeighbor eventsById) st).2.length ≤ st.2.length + cs.length
  | [], _ => Nat.le_refl _
  | c :: cs, st => by
    refine Nat.le_trans (length_foldl_visit cs _) ?_
    have hlen : (visitNeighbor eventsById st c).2.length ≤ st.2.length + 1 := by
      rcases visitNeighbor_zero eventsById st c with he | ⟨k, -, he⟩ <;> rw [he]
      · exact Nat.le_succ _
      · exact length_insertKey k st.2
    rw [List.length_cons]
    omega

end

/-! ## The events with in-degree 0 -/

section
variable {eventsById : BTreeMap EventId Pdu} {inDegree : BTreeMap EventId Nat}

theorem zeroInDegree_eq : zeroInDegree eventsById inDegree =
    ((byEventId inDegree).filterMap fun e => if e.2 = 0 then readyKey eventsById e.1 else none).foldl
      (fun s k => insertKey k s) [] := by
  rw [zeroInDegree, List.foldl_filterMap]
  congr 1
  funext s e
  unfold readyKey
  split
  · cases eventsById.lookup e.1 <;> rfl
  · rfl

theorem mem_foldl_insertKey (k : TsKey) : ∀ (l s : List TsKey),
    k ∈ l.foldl (fun s k => insertKey k s) s ↔ k ∈ s ∨ k ∈ l
  | [], s => by simp
  | a :: l, s => by
    rw [List.foldl_cons, mem_foldl_insertKey k l, mem_insertKey, List.mem_cons]
    tauto

theorem sorted_foldl_insertKey : ∀ (l s : List TsKey), s.Pairwise (· < ·) →
    (l.foldl (fun s k => insertKey k s) s).Pairwise (· < ·)
  | [], _, h => h
  | k :: l, _, h => sorted_foldl_insertKey l _ (sorted_insertKey k h)

theorem mem_zeroInDegree (k : TsKey) :
    k ∈ zeroInDegree eventsById inDegree ↔ ∃ x, inDegree.lookup x = some 0 ∧ readyKey eventsById x = some k := by
  rw [zeroInDegree_eq, mem_foldl_insertKey, or_iff_right List.not_mem_nil, List.mem_filterMap]
  simp only [Option.ite_none_right_eq_some, Prod.exists, mem_byEventId]
  constructor
  · rintro ⟨x, d, hx, rfl, hk⟩
    exact ⟨x, hx, hk⟩
  · rintro ⟨x, hx, hk⟩
    exact ⟨x, 0, hx, rfl, hk⟩

end

/-! ## The loop takes the greedy order -/

/-- An event as `kahn_sort` would get it. -/
def dagNode (ev : Pdu) : Node EventId TsKey := ⟨ev.eventId, ev.prevEvents, tsKey ev⟩

/-- The citations of an event that wait for `done`. -/
abbrev waiting (events : List Pdu) (done : List EventId) (ev : Pdu) : List EventId :=
  pending (events.map dagNode) done (dagNode ev)

/-- The loop invariant: the unsorted events, their counts, and in order those whose
count is zero. -/
structure DagInv (events : List Pdu) (done : List EventId) (eventsById : BTreeMap EventId Pdu)
    (inDegree : BTreeMap EventId Nat) (zero : List TsKey) : Prop where
  unsorted : ∀ x, eventsById.lookup x = if x ∈ done then none else eventOf events x
  degree : ∀ ev ∈ events, inDegree.lookup ev.eventId = some (waiting events done ev).length
  zero_sorted : zero.Pairwise (· < ·)
  zero_iff : ∀ k, k ∈ zero ↔ ∃ ev ∈ events, ev.eventId ∉ done ∧ (waiting events done ev).length = 0 ∧ k = tsKey ev

section
variable {events : List Pdu} (hn : (events.map (·.eventId)).Nodup)

theorem tsKey_id {ev ev' : Pdu} (h : tsKey ev = tsKey ev') : ev.eventId = ev'.eventId :=
  congrArg (fun k => (ofLex k).2) h

theorem dagNode_ids : (events.map dagNode).map (·.id) = events.map (·.eventId) := by
  rw [List.map_map]
  rfl

/-- The events behind an edge out of `p`, once for each citation. -/
abbrev citersOf (events : List Pdu) (p : EventId) : List EventId :=
  ((dagEdges events).filter fun e => e.2 = p).map (·.1)

include hn

theorem event_eq {ev ev' : Pdu} (h : ev ∈ events) (h' : ev' ∈ events) (hid : ev.eventId = ev'.eventId) : ev = ev' :=
  List.inj_on_of_nodup_map hn h h' hid

theorem count_citersOf {p : EventId} (hp : p ∈ events.map (·.eventId)) {ev : Pdu} (hev : ev ∈ events) :
    (citersOf events p).count ev.eventId = (ev.prevEvents.filter fun q => q = p).length := by
  have hcount := countP_dagEdges hn hev fun q => q = p
  rw [citersOf, List.count, List.countP_map, List.countP_filter]
  rw [List.countP_filter, List.countP_eq_length_filter (l := ev.prevEvents)] at hcount
  calc _ = (dagEdges events).countP fun e => e.1 = ev.eventId && decide (e.2 = p) := by
        refine List.countP_congr fun e _ => ?_
        simp
    _ = _ := hcount
    _ = _ := by
        refine congrArg List.length (List.filter_congr fun q _ => ?_)
        by_cases hq : q = p
        · subst hq
          simpa using hp
        · simp [hq]

theorem readyKey_iff {done : List EventId} {eventsById : BTreeMap EventId Pdu}
    (h : ∀ x, eventsById.lookup x = if x ∈ done then none else eventOf events x) (x : EventId) (k : TsKey) :
    readyKey eventsById x = some k ↔ ∃ ev ∈ events, ev.eventId ∉ done ∧ x = ev.eventId ∧ k = tsKey ev := by
  rw [readyKey, h, Option.map_eq_some_iff]
  constructor
  · rintro ⟨ev, hl, rfl⟩
    split at hl
    · cases hl
    · rename_i hx
      obtain ⟨hev, rfl⟩ := (eventOf_eq_some hn).mp hl
      exact ⟨ev, hev, hx, rfl, rfl⟩
  · rintro ⟨ev, hev, hx, rfl, rfl⟩
    exact ⟨ev, by rw [if_neg hx]; exact (eventOf_eq_some hn).mpr ⟨hev, rfl⟩, rfl⟩

theorem DagInv.mem_zero {done : List EventId} {eventsById : BTreeMap EventId Pdu} {inDegree : BTreeMap EventId Nat}
    {zero : List TsKey} {ev : Pdu} (hI : DagInv events done eventsById inDegree zero) (hev : ev ∈ events)
    (hnot : ev.eventId ∉ done) : tsKey ev ∈ zero ↔ (waiting events done ev).length = 0 := by
  rw [hI.zero_iff]
  constructor
  · rintro ⟨ev', hev', -, h0, hk⟩
    rwa [event_eq hn hev hev' (tsKey_id hk)]
  · exact fun h0 => ⟨ev, hev, hnot, h0, rfl⟩

theorem DagInv.take {done : List EventId} {eventsById : BTreeMap EventId Pdu} {inDegree : BTreeMap EventId Nat}
    {zero : List TsKey} {ev : Pdu} (hI : DagInv events done eventsById inDegree (tsKey ev :: zero))
    (hev : ev ∈ events)
    (hdone : ev.eventId ∉ done) :
    DagInv events (done ++ [ev.eventId]) (eventsById.erase ev.eventId)
      ((citersOf events ev.eventId).foldl (visitNeighbor (eventsById.erase ev.eventId)) (inDegree, zero)).1
      ((citersOf events ev.eventId).foldl (visitNeighbor (eventsById.erase ev.eventId)) (inDegree, zero)).2 := by
  have hin : ev.eventId ∈ events.map (·.eventId) := List.mem_map_of_mem hev
  have hcount := fun ev' (hev' : ev' ∈ events) => count_citersOf hn hin hev'
  have hnode : ev.eventId ∈ (events.map dagNode).map (·.id) := dagNode_ids ▸ hin
  have hsnoc := fun ev' => pending_snoc done hnode hdone (dagNode ev')
  have hunsorted : ∀ x, (eventsById.erase ev.eventId).lookup x =
      if x ∈ done ++ [ev.eventId] then none else eventOf events x := by
    intro x
    by_cases hx : x = ev.eventId
    · subst hx
      simp
    · simp [AList.lookup_erase_ne hx, hI.unsorted, hx]
  have hready := readyKey_iff hn hunsorted
  obtain ⟨hfirst, hsorted⟩ := List.pairwise_cons.mp hI.zero_sorted
  -- the ready events before, without the one that is taken
  have hzero : ∀ ev' ∈ events, ev'.eventId ∉ done ++ [ev.eventId] →
      (tsKey ev' ∈ zero ↔ (waiting events done ev').length = 0) := by
    intro ev' hev' hnot
    rw [List.mem_append, List.mem_singleton, not_or] at hnot
    have hiff := hI.mem_zero hn hev' hnot.1
    rwa [List.mem_cons, or_iff_right fun h => hnot.2 (tsKey_id h)] at hiff
  have hmem : ∀ ev' ∈ events, ev'.eventId ∉ done ++ [ev.eventId] →
      (tsKey ev' ∈ ((citersOf events ev.eventId).foldl (visitNeighbor (eventsById.erase ev.eventId))
        (inDegree, zero)).2 ↔ (waiting events (done ++ [ev.eventId]) ev').length = 0) := by
    intro ev' hev' hnot
    rw [mem_foldl_visit ((hready _ _).mpr ⟨ev', hev', hnot, rfl, rfl⟩), hzero ev' hev' hnot, hI.degree ev' hev',
      Option.any_some, decide_eq_true_eq, ← List.count_pos_iff, hcount ev' hev']
    have h : (ev'.prevEvents.filter fun q => q = ev.eventId).length +
        (waiting events (done ++ [ev.eventId]) ev').length = (waiting events done ev').length := hsnoc ev'
    omega
  refine ⟨hunsorted, fun ev' hev' => ?_, foldl_visit_sorted _ _ hsorted, fun k => ⟨fun hk => ?_, ?_⟩⟩
  · rw [foldl_visit_degree, hI.degree ev' hev', Option.map_some, hcount ev' hev', ← hsnoc ev']
    exact congrArg some (Nat.add_sub_cancel_left ..)
  · have hevent : ∃ ev' ∈ events, ev'.eventId ∉ done ++ [ev.eventId] ∧ k = tsKey ev' := by
      rcases foldl_visit_ready _ _ hk with hz | ⟨x, hx⟩
      · obtain ⟨ev', hev', hnot, -, rfl⟩ := (hI.zero_iff k).mp (List.mem_cons_of_mem _ hz)
        refine ⟨ev', hev', ?_, rfl⟩
        rw [List.mem_append, List.mem_singleton, not_or]
        refine ⟨hnot, fun hid => ?_⟩
        rw [event_eq hn hev' hev hid] at hz
        exact lt_irrefl _ (hfirst _ hz)
      · obtain ⟨ev', hev', hnot, -, rfl⟩ := (hready x k).mp hx
        exact ⟨ev', hev', hnot, rfl⟩
    obtain ⟨ev', hev', hnot, rfl⟩ := hevent
    exact ⟨ev', hev', hnot, (hmem ev' hev' hnot).mp hk, rfl⟩
  · rintro ⟨ev', hev', hnot, h0, rfl⟩
    exact (hmem ev' hev' hnot).mpr h0

/-- The edges whose parent is not sorted yet. -/
def edgesLeft (events : List Pdu) (done : List EventId) : Nat := (dagEdges events).countP fun e => e.2 ∉ done

omit hn in
variable (events) in
theorem edgesLeft_snoc {p : EventId} {done : List EventId} (hp : p ∉ done) :
    (citersOf events p).length + edgesLeft events (done ++ [p]) = edgesLeft events done := by
  unfold edgesLeft citersOf
  rw [List.length_map, ← List.countP_eq_length_filter]
  induction dagEdges events with
  | nil => rfl
  | cons e edges ih =>
    simp only [List.countP_cons, ← ih]
    by_cases he : e.2 = p
    · simp [he, hp]
      omega
    · simp [he]
      omega

def dagKey (events : List Pdu) (x : EventId) : TsKey :=
  toLex (((eventOf events x).map (·.originServerTs)).getD 0, x)

theorem dagKey_event {ev : Pdu} (hev : ev ∈ events) : dagKey events ev.eventId = tsKey ev := by
  rw [dagKey, (eventOf_eq_some hn).mpr ⟨hev, rfl⟩]
  rfl

theorem dag_ready_iff {done : List EventId} {ev : Pdu} (hev : ev ∈ events) :
    NodeReady (events.map dagNode) done ev.eventId ↔
      ev.eventId ∉ done ∧ (waiting events done ev).length = 0 :=
  ready_iff (n := dagNode ev) (dagNode_ids ▸ hn) (List.mem_map_of_mem hev)

omit hn in
theorem event_of_ready {done : List EventId} {x : EventId} (h : NodeReady (events.map dagNode) done x) :
    ∃ ev ∈ events, ev.eventId = x := by
  obtain ⟨n, hm, rfl⟩ := List.mem_map.mp h.1
  obtain ⟨ev, hev, rfl⟩ := List.mem_map.mp hm
  exact ⟨ev, hev, rfl⟩

/-- From a state of the invariant the loop appends the greedy order, and keeps the rest. -/
theorem drainZero_greedy : ∀ (fuel : Nat) (eventsById : BTreeMap EventId Pdu) (inDegree : BTreeMap EventId Nat)
    (zero : List TsKey) (sorted : List Pdu), DagInv events (sorted.map (·.eventId)) eventsById inDegree zero →
    zero.length + edgesLeft events (sorted.map (·.eventId)) ≤ fuel →
    ∃ l rest, drainZero (buildGraph events).adjacencyList fuel eventsById inDegree zero sorted =
      (sorted ++ l, rest) ∧
      (∀ ev ∈ l, ev ∈ events) ∧
      IsGreedy (NodeReady (events.map dagNode)) (dagKey events) (sorted.map (·.eventId)) (l.map (·.eventId)) ∧
      ∀ x, rest.lookup x = if x ∈ (sorted ++ l).map (·.eventId) then none else eventOf events x := by
  intro fuel eventsById inDegree zero sorted hI hf
  have hstop : ∀ {done eventsById inDegree}, DagInv events done eventsById inDegree [] →
      ∀ x, ¬ NodeReady (events.map dagNode) done x := by
    intro done eventsById inDegree hI x hx
    obtain ⟨ev, hev, rfl⟩ := event_of_ready hx
    obtain ⟨hnot, h0⟩ := (dag_ready_iff hn hev).mp hx
    cases (hI.mem_zero hn hev hnot).mpr h0
  induction fuel generalizing eventsById inDegree zero sorted with
  | zero =>
    obtain rfl : zero = [] := List.eq_nil_of_length_eq_zero (by omega)
    exact ⟨[], eventsById, by simp [drainZero], by simp, .stop (hstop hI), by simpa using hI.unsorted⟩
  | succ fuel ih =>
    cases zero with
    | nil => exact ⟨[], eventsById, by simp [drainZero], by simp, .stop (hstop hI), by simpa using hI.unsorted⟩
    | cons first zero =>
      obtain ⟨ev, hev, hnot, h0, rfl⟩ := (hI.zero_iff first).mp List.mem_cons_self
      have hl : eventsById.lookup ev.eventId = some ev := by
        rw [hI.unsorted, if_neg hnot]
        exact (eventOf_eq_some hn).mpr ⟨hev, rfl⟩
      have hadj : ((buildGraph events).adjacencyList.lookup ev.eventId).getD [] = citersOf events ev.eventId := by
        rw [buildGraph_eq, adjacency_foldl]
        rfl
      have hI' := hI.take hn hev hnot
      have hlen := length_foldl_visit (eventsById.erase ev.eventId) (citersOf events ev.eventId) (inDegree, zero)
      change _ ≤ zero.length + _ at hlen
      have hleft := edgesLeft_snoc events hnot
      rw [drainZero]
      simp only [tsKey, ofLex_toLex, hl, Option.toList_some, hadj]
      rw [List.length_cons] at hf
      obtain ⟨l, rest, hd, hmem, hg, hrest⟩ := ih _ _ _ (sorted ++ [ev])
        (by simpa only [List.map_append, List.map_singleton] using hI')
        (by simp only [List.map_append, List.map_singleton]; omega)
      refine ⟨ev :: l, rest, by rw [hd]; simp, ?_, .pick ((dag_ready_iff hn hev).mpr
        ⟨hnot, h0⟩) (fun y hy => ?_) ?_,
        by simpa using hrest⟩
      · rintro ev' (_ | ⟨_, h⟩)
        · exact hev
        · exact hmem ev' h
      · obtain ⟨ev', hev', rfl⟩ := event_of_ready hy
        obtain ⟨hnot', h0'⟩ := (dag_ready_iff hn hev').mp hy
        rw [dagKey_event hn hev, dagKey_event hn hev']
        rcases List.mem_cons.mp ((hI.mem_zero hn hev' hnot').mpr h0') with h | h
        · exact le_of_eq h.symm
        · exact le_of_lt ((List.pairwise_cons.mp hI.zero_sorted).1 _ h)
      · simpa using hg

/-! ## The two sorts agree -/

theorem lookup_inDegree {ev : Pdu} (hev : ev ∈ events) :
    (buildGraph events).inDegree.lookup ev.eventId = some (waiting events [] ev).length := by
  have hzero : (events.foldl (fun m ev => m.insert ev.eventId 0) (∅ : BTreeMap EventId Nat)).lookup ev.eventId =
      some 0 := by
    rw [lookup_foldl_insert (fun _ => 0) ev.eventId events ∅ hn, (eventOf_eq_some hn).mpr ⟨hev, rfl⟩]
    rfl
  rw [buildGraph_eq, inDegree_foldl _ _ _ 0 hzero, Nat.zero_add]
  have hcount := countP_dagEdges hn hev fun _ => true
  simp only [Bool.and_true, List.countP_true] at hcount
  rw [hcount, waiting, pending, dagNode_ids]
  refine congrArg (fun l => some (List.length l)) (List.filter_congr fun p _ => ?_)
  simp

theorem dagInv_start : DagInv events [] (collectEvents events) (buildGraph events).inDegree
    (zeroInDegree (collectEvents events) (buildGraph events).inDegree) := by
  have hunsorted : ∀ x, (collectEvents events).lookup x = if x ∈ [] then none else eventOf events x := by
    simp [lookup_collectEvents hn]
  refine ⟨hunsorted, fun ev hev => lookup_inDegree hn hev, ?_, fun k => ?_⟩
  · rw [zeroInDegree_eq]
    exact sorted_foldl_insertKey _ _ .nil
  · rw [mem_zeroInDegree]
    simp only [readyKey_iff hn hunsorted]
    constructor
    · rintro ⟨x, hx, ev, hev, hnot, rfl, rfl⟩
      rw [lookup_inDegree hn hev, Option.some.injEq] at hx
      exact ⟨ev, hev, hnot, hx, rfl⟩
    · rintro ⟨ev, hev, hnot, h0, rfl⟩
      exact ⟨ev.eventId, by rw [lookup_inDegree hn hev, h0], ev, hev, hnot, rfl, rfl⟩

theorem start_length_le : (zeroInDegree (collectEvents events) (buildGraph events).inDegree).length ≤
    events.length := by
  have hI := dagInv_start hn
  have hsub : zeroInDegree (collectEvents events) (buildGraph events).inDegree ⊆ events.map tsKey := by
    intro k hk
    obtain ⟨ev, hev, -, -, rfl⟩ := (hI.zero_iff k).mp hk
    exact List.mem_map_of_mem hev
  have hle := (List.subperm_of_subset (hI.zero_sorted.imp ne_of_lt) hsub).length_le
  rwa [List.length_map] at hle

/-- The sort is the greedy order of the batch, followed by the other events by key. -/
theorem sortTopologically_greedy : ∃ sorted remaining, sortTopologically events = sorted ++ remaining ∧
    (∀ ev ∈ sorted ++ remaining, ev ∈ events) ∧
    IsGreedy (NodeReady (events.map dagNode)) (dagKey events) [] (sorted.map (·.eventId)) ∧
    (remaining.map (·.eventId)).Nodup ∧
    (∀ ev ∈ events, ev ∈ remaining ↔ ev.eventId ∉ sorted.map (·.eventId)) ∧
    remaining.Pairwise fun a b => tsKey a ≤ tsKey b := by
  have hfuel : (zeroInDegree (collectEvents events) (buildGraph events).inDegree).length + edgesLeft events [] ≤
      sortFuel events :=
    Nat.add_le_add (start_length_le hn) (Nat.le_trans List.countP_le_length (length_dagEdges_le hn))
  obtain ⟨sorted, rest, hd, hmem, hg, hrest⟩ := drainZero_greedy hn _ _ _ _ [] (dagInv_start hn) hfuel
  rw [List.nil_append] at hd hrest
  have hperm := List.perm_insertionSort (fun a b => tsKey a ≤ tsKey b) ((byEventId rest).map (·.2))
  have hentry : ∀ x ev, (x, ev) ∈ byEventId rest ↔ (ev ∈ events ∧ ev.eventId = x) ∧ x ∉ sorted.map (·.eventId) := by
    intro x ev
    rw [mem_byEventId, hrest, ← eventOf_eq_some hn]
    split
    · rename_i h
      simp only [h, not_true_eq_false, and_false, reduceCtorEq]
    · rename_i h
      simp only [h, not_false_eq_true, and_true]
  have hrem : ∀ ev, ev ∈ (byEventId rest).map (·.2) ↔ ev ∈ events ∧ ev.eventId ∉ sorted.map (·.eventId) := by
    intro ev
    simp only [List.mem_map (l := byEventId rest), Prod.exists, exists_eq_right, hentry]
    constructor
    · rintro ⟨x, ⟨hev, rfl⟩, hx⟩
      exact ⟨hev, hx⟩
    · rintro ⟨hev, hx⟩
      exact ⟨ev.eventId, ⟨hev, rfl⟩, hx⟩
  refine ⟨sorted, _, by rw [sortTopologically, hd], fun ev hev => ?_, hg, ?_, fun ev hev => ?_, ?_⟩
  · rcases List.mem_append.mp hev with h | h
    · exact hmem ev h
    · exact ((hrem ev).mp (hperm.mem_iff.mp h)).1
  · rw [(hperm.map _).nodup_iff, List.map_map]
    have hkeys : (byEventId rest).map ((·.eventId) ∘ (·.2)) = (byEventId rest).map (·.1) :=
      List.map_congr_left fun e he => ((hentry e.1 e.2).mp he).1.2
    rw [hkeys]
    exact byEventId_keys_nodup rest
  · rw [hperm.mem_iff, hrem, and_iff_right hev]
  · exact List.pairwise_insertionSort _ _

theorem sortTopologically_perm : (sortTopologically events).Perm events := by
  obtain ⟨sorted, remaining, he, hmem, hg, hnd, hrem, -⟩ := sortTopologically_greedy hn
  have hids : ((sorted ++ remaining).map (·.eventId)).Nodup := by
    rw [List.map_append]
    refine List.Nodup.append hg.nodup.1 hnd fun x hx hx' => ?_
    obtain ⟨ev, hev, rfl⟩ := List.mem_map.mp hx'
    exact (hrem ev (hmem ev (List.mem_append_right _ hev))).mp hev hx
  rw [he]
  refine (List.perm_ext_iff_of_nodup (List.Nodup.of_map _ hids) (List.Nodup.of_map _ hn)).mpr
    fun ev => ⟨hmem ev, ?_⟩
  intro hev
  rw [List.mem_append]
  by_cases h : ev.eventId ∈ sorted.map (·.eventId)
  · obtain ⟨ev', hev', hid⟩ := List.mem_map.mp h
    exact Or.inl (event_eq hn (hmem ev' (List.mem_append_left _ hev')) hev hid ▸ hev')
  · exact Or.inr ((hrem ev hev).mpr h)

end

/-- The sort of the DAG and Kahn's algorithm keyed by time and id give one list. -/
theorem topological_sorts_agree {events : List Pdu} (hn : (events.map (·.eventId)).Nodup) :
    (sortTopologically events).Perm events ∧
      (sortTopologically events).map (·.eventId) = kahnSort (events.map dagNode) := by
  refine ⟨sortTopologically_perm hn, ?_⟩
  obtain ⟨sorted, remaining, he, hmem, hg, hnd, hrem, hsorted⟩ := sortTopologically_greedy hn
  have hkey : ∀ n ∈ events.map dagNode, n.key = dagKey events n.id := by
    rintro n hm
    obtain ⟨ev, hev, rfl⟩ := List.mem_map.mp hm
    exact (dagKey_event hn hev).symm
  obtain ⟨l₁, l₂, hk, hg', hnd', hmem', hsorted'⟩ := kahnSort_greedy (dagNode_ids ▸ hn) hkey
  have hinj : ∀ x y, dagKey events x = dagKey events y → x = y := fun x y h => congrArg (fun k => (ofLex k).2) h
  have h₁ : sorted.map (·.eventId) = l₁ := hg.unique (fun _ _ h => hinj _ _ h) hg'
  have h₂ : remaining.map (·.eventId) = l₂ := by
    refine List.Perm.eq_of_pairwise (fun x y _ _ hxy hyx => hinj x y (le_antisymm hxy hyx)) ?_ hsorted' ?_
    · rw [List.pairwise_map]
      refine hsorted.imp_of_mem fun {a b} ha hb h => ?_
      rwa [dagKey_event hn (hmem a (List.mem_append_right _ ha)), dagKey_event hn
        (hmem b (List.mem_append_right _ hb))]
    · refine (List.perm_ext_iff_of_nodup hnd hnd').mpr fun x => ?_
      rw [hmem', ← h₁, IsNode, dagNode_ids]
      constructor
      · intro hx
        obtain ⟨ev, hev, rfl⟩ := List.mem_map.mp hx
        have hin := hmem ev (List.mem_append_right _ hev)
        exact ⟨List.mem_map_of_mem hin, (hrem ev hin).mp hev⟩
      · rintro ⟨hx, hnot⟩
        obtain ⟨ev, hev, rfl⟩ := List.mem_map.mp hx
        exact List.mem_map_of_mem ((hrem ev hev).mpr hnot)
  rw [he, List.map_append, h₁, h₂, hk]

/-- A repeated citation, a self reference, one outside the batch, and a cycle. -/
def tangledBatch : List Pdu :=
  [("$c", 3, ["$a", "$b", "$a"]), ("$a", 5, ["$z"]), ("$b", 4, []), ("$d", 1, ["$d"]), ("$f", 0, ["$e"]),
    ("$e", 2, ["$f", "$c"])].map fun (id, ts, prevEvents) =>
      ⟨id, none, "@alice:a", ts, .other "m.room.topic", .null, none, prevEvents, 0, [], none, false⟩

theorem topological_sorts_agree_tangled :
    (sortTopologically tangledBatch).map (·.eventId) = ["$b", "$a", "$c", "$f", "$d", "$e"] ∧
      kahnSort (tangledBatch.map dagNode) = ["$b", "$a", "$c", "$f", "$d", "$e"] := by
  have h := (topological_sorts_agree (by decide : (tangledBatch.map (·.eventId)).Nodup)).2
  have hs : (sortTopologically tangledBatch).map (·.eventId) = ["$b", "$a", "$c", "$f", "$d", "$e"] := by decide
  exact ⟨hs, h ▸ hs⟩

end Congruent
