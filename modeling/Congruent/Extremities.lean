import Congruent.Event
import Congruent.KeyedMap
import Mathlib.Data.Finset.Lattice.Fold

/-!
# Phantom and true extremities, by sets and by bitmaps

The functions over sets of event ids and their variants over bitmaps compute the same:
a relation between a bitmap and the events it stands for is kept by each pair.
-/

namespace Congruent.Extremities

/-! ## Over sets

A set is listed in the order it is iterated in. -/

abbrev Graph := AList fun _ : EventId => List EventId

/-- The ids that are a parent of some event (`has_children`). -/
def hasChildren (graph : Graph) : List EventId := graph.entries.flatMap fun e => e.2

def detectPhantomExtremities (graph : Graph) (storedExtremities : List EventId) : List EventId :=
  storedExtremities.filter fun eid => eid ∈ hasChildren graph

def calculateTrueExtremities (graph : Graph) (sorted : List EventId) : List EventId :=
  let trueExtremities := sorted.filter fun eid => eid ∉ hasChildren graph
  if trueExtremities.isEmpty then sorted.getLast?.toList else trueExtremities

def mergeTrueExtremities (trueExtremities currentSet phantomTips : List EventId) : List EventId :=
  currentSet.foldl (fun set eid => if eid ∈ phantomTips then set else set.insert eid) trueExtremities.dedup

/-! ## Over bitmaps -/

abbrev RoaringBitmap := Finset UInt32

def hasChildrenRoaring (graph : List RoaringBitmap) : RoaringBitmap :=
  graph.foldl (fun set parents => set ∪ parents) ∅

def detectPhantomExtremitiesRoaring (graph : List RoaringBitmap) (storedExtremities : RoaringBitmap) :
    RoaringBitmap :=
  storedExtremities ∩ hasChildrenRoaring graph

def calculateTrueExtremitiesRoaring (graph : List RoaringBitmap) (sorted : List UInt32) : RoaringBitmap :=
  let trueExtremities := sorted.foldl
    (fun set id => if id ∈ hasChildrenRoaring graph then set else insert id set) ∅
  if trueExtremities = ∅ then
    match sorted.getLast? with
    | some lastId => insert lastId trueExtremities
    | none => trueExtremities
  else trueExtremities

def mergeTrueExtremitiesRoaring (trueExtremities currentSet phantomTips : RoaringBitmap) : RoaringBitmap :=
  trueExtremities ∪ (currentSet \ phantomTips)

/-! ## Events and their indices -/

structure EventIndex where
  index : EventId → Option UInt32
  injective : ∀ a b i, index a = some i → index b = some i → a = b

namespace EventIndex

variable (idx : EventIndex)

def bitmap (l : List EventId) : RoaringBitmap := (l.filterMap idx.index).toFinset

def Represents (b : RoaringBitmap) (l : List EventId) : Prop :=
  (∀ e ∈ l, ∃ i ∈ b, idx.index e = some i) ∧ ∀ i ∈ b, ∃ e ∈ l, idx.index e = some i

/-- The rows are the parents of the events, as far as they have an index; others are empty. -/
structure Tabulates (graph : Graph) (rows : List RoaringBitmap) : Prop where
  row : ∀ e ∈ graph.entries, idx.bitmap e.2 ∈ rows
  of_row : ∀ r ∈ rows, r = ∅ ∨ ∃ e ∈ graph.entries, r = idx.bitmap e.2

variable {idx}

theorem mem_bitmap {l : List EventId} {i : UInt32} : i ∈ idx.bitmap l ↔ ∃ e ∈ l, idx.index e = some i := by
  rw [bitmap, List.mem_toFinset, List.mem_filterMap]

theorem Represents.mem_iff {b : RoaringBitmap} {l : List EventId} (h : idx.Represents b l)
    {e : EventId} {i : UInt32}
    (he : idx.index e = some i) : i ∈ b ↔ e ∈ l := by
  constructor
  · intro hi
    obtain ⟨e', he', hi⟩ := h.2 i hi
    rw [idx.injective e e' i he hi]
    exact he'
  · intro hl
    obtain ⟨j, hj, hej⟩ := h.1 e hl
    rw [he] at hej
    cases hej
    exact hj

/-- To be represented it is enough that events of the list have an index and that the
indices in the bitmap are those of events of the list. -/
theorem represents_of_mem_iff {b : RoaringBitmap} {l : List EventId}
    (hl : ∀ e ∈ l, ∃ i, idx.index e = some i) (hb : ∀ i ∈ b, ∃ e, idx.index e = some i)
    (h : ∀ e i, idx.index e = some i → (i ∈ b ↔ e ∈ l)) : idx.Represents b l := by
  constructor
  · intro e he
    obtain ⟨i, hi⟩ := hl e he
    exact ⟨i, (h e i hi).mpr he, hi⟩
  · intro i hi
    obtain ⟨e, he⟩ := hb i hi
    exact ⟨e, (h e i he).mp hi, he⟩

theorem Represents.indexed {b : RoaringBitmap} {l : List EventId} (h : idx.Represents b l) :
    ∀ e ∈ l, ∃ i, idx.index e = some i := by
  intro e he
  obtain ⟨i, -, hi⟩ := h.1 e he
  exact ⟨i, hi⟩

theorem Represents.named {b : RoaringBitmap} {l : List EventId} (h : idx.Represents b l) :
    ∀ i ∈ b, ∃ e, idx.index e = some i := by
  intro i hi
  obtain ⟨e, -, he⟩ := h.2 i hi
  exact ⟨e, he⟩

theorem Represents.eq_nil {l : List EventId} (h : idx.Represents ∅ l) : l = [] := by
  refine List.eq_nil_iff_forall_not_mem.mpr fun e he => ?_
  obtain ⟨i, hi, -⟩ := h.1 e he
  exact Finset.notMem_empty i hi

theorem Represents.eq_empty {b : RoaringBitmap} (h : idx.Represents b []) : b = ∅ := by
  refine Finset.eq_empty_of_forall_notMem fun i hi => ?_
  obtain ⟨e, he, -⟩ := h.2 i hi
  exact List.not_mem_nil he

theorem represents_empty : idx.Represents ∅ [] :=
  ⟨fun _ h => absurd h List.not_mem_nil, fun i h => absurd h (Finset.notMem_empty i)⟩

theorem represents_singleton {e : EventId} {i : UInt32} (h : idx.index e = some i) : idx.Represents {i} [e] :=
  ⟨fun _ hx => ⟨i, Finset.mem_singleton_self i, List.mem_singleton.mp hx ▸ h⟩,
    fun _ hj => ⟨e, List.mem_singleton_self e, Finset.mem_singleton.mp hj ▸ h⟩⟩

end EventIndex

/-! ## The two versions agree -/

theorem mem_union_rows (rows : List RoaringBitmap) (set : RoaringBitmap) (i : UInt32) :
    i ∈ rows.foldl (fun set parents => set ∪ parents) set ↔ i ∈ set ∨ ∃ r ∈ rows, i ∈ r := by
  induction rows generalizing set with
  | nil => simp
  | cons r rows ih => rw [List.foldl_cons, ih, Finset.mem_union, or_assoc, List.exists_mem_cons_iff]

section
variable {idx : EventIndex} {graph : Graph} {rows : List RoaringBitmap} (h : idx.Tabulates graph rows)
include h

theorem mem_hasChildrenRoaring {e : EventId} {i : UInt32} (he : idx.index e = some i) :
    i ∈ hasChildrenRoaring rows ↔ e ∈ hasChildren graph := by
  rw [hasChildrenRoaring, mem_union_rows, hasChildren, List.mem_flatMap]
  constructor
  · intro hi
    obtain ⟨r, hr, hi⟩ := hi.resolve_left (Finset.notMem_empty i)
    rcases h.of_row r hr with rfl | ⟨row, hrow, rfl⟩
    · exact absurd hi (Finset.notMem_empty i)
    · obtain ⟨e', he', hi⟩ := EventIndex.mem_bitmap.mp hi
      rw [idx.injective e e' i he hi]
      exact ⟨row, hrow, he'⟩
  · rintro ⟨row, hrow, hmem⟩
    exact Or.inr ⟨_, h.row row hrow, EventIndex.mem_bitmap.mpr ⟨e, hmem, he⟩⟩

theorem detectPhantom_represents {b : RoaringBitmap} {stored : List EventId} (hb : idx.Represents b stored) :
    idx.Represents (detectPhantomExtremitiesRoaring rows b) (detectPhantomExtremities graph stored) := by
  refine EventIndex.represents_of_mem_iff ?_ ?_ fun e i he => ?_
  · exact fun e he => hb.indexed e (List.mem_filter.mp he).1
  · exact fun i hi => hb.named i (Finset.mem_inter.mp hi).1
  · rw [detectPhantomExtremitiesRoaring, Finset.mem_inter, detectPhantomExtremities, List.mem_filter,
      decide_eq_true_eq, hb.mem_iff he, mem_hasChildrenRoaring h he]

omit h in
theorem mem_insert_childless (hasChildren : RoaringBitmap) (ids : List UInt32) (set : RoaringBitmap) (i : UInt32) :
    i ∈ ids.foldl (fun set id => if id ∈ hasChildren then set else insert id set) set ↔
      i ∈ set ∨ i ∈ ids ∧ i ∉ hasChildren := by
  induction ids generalizing set with
  | nil => simp
  | cons id ids ih =>
    rw [List.foldl_cons, ih, List.mem_cons]
    by_cases hid : id ∈ hasChildren
    · rw [if_pos hid]
      refine or_congr_right (and_congr_left fun hnot => ?_)
      rw [or_iff_right]
      rintro rfl
      exact hnot hid
    · rw [if_neg hid, Finset.mem_insert, or_and_right, or_comm (a := i = id), or_assoc]
      refine or_congr_right (or_congr_left ?_)
      exact ⟨fun heq => ⟨heq, heq ▸ hid⟩, fun hi => hi.1⟩

omit h in
theorem sorted_represents {sorted : List EventId} {ids : List UInt32}
    (hsorted : sorted.map idx.index = ids.map some) :
    idx.Represents ids.toFinset sorted := by
  constructor
  · intro e he
    have hmem : idx.index e ∈ ids.map some := hsorted ▸ List.mem_map.mpr ⟨e, he, rfl⟩
    obtain ⟨i, hi, hei⟩ := List.mem_map.mp hmem
    exact ⟨i, List.mem_toFinset.mpr hi, hei.symm⟩
  · intro i hi
    have hmem : some i ∈ sorted.map idx.index := hsorted ▸ List.mem_map.mpr ⟨i, List.mem_toFinset.mp hi, rfl⟩
    exact List.mem_map.mp hmem

theorem calculateTrue_represents {sorted : List EventId} {ids : List UInt32}
    (hsorted : sorted.map idx.index = ids.map some) :
    idx.Represents (calculateTrueExtremitiesRoaring rows ids) (calculateTrueExtremities graph sorted) := by
  have hids := sorted_represents hsorted
  have hchildless : idx.Represents
      (ids.foldl (fun set id => if id ∈ hasChildrenRoaring rows then set else insert id set) ∅)
      (sorted.filter fun eid => eid ∉ hasChildren graph) := by
    refine EventIndex.represents_of_mem_iff ?_ ?_ fun e i he => ?_
    · exact fun e he => hids.indexed e (List.mem_filter.mp he).1
    · intro i hi
      rw [mem_insert_childless] at hi
      exact hids.named i (List.mem_toFinset.mpr (hi.resolve_left (Finset.notMem_empty i)).1)
    · rw [mem_insert_childless, or_iff_right (Finset.notMem_empty i), List.mem_filter, decide_eq_true_eq,
        ← hids.mem_iff he, List.mem_toFinset, mem_hasChildrenRoaring h he]
  unfold calculateTrueExtremitiesRoaring calculateTrueExtremities
  by_cases hempty : (sorted.filter fun eid => eid ∉ hasChildren graph) = []
  · rw [hempty] at hchildless ⊢
    have hset := hchildless.eq_empty
    -- no event without children: the last one stands in, where there is one
    have hlast : sorted.getLast?.map idx.index = ids.getLast?.map some := by
      rw [← List.getLast?_map, hsorted, List.getLast?_map]
    simp only [hset, if_true, List.isEmpty_nil]
    cases he : sorted.getLast? with
    | none =>
      rw [he, Option.map_none, eq_comm, Option.map_eq_none_iff] at hlast
      rw [hlast]
      exact EventIndex.represents_empty
    | some e =>
      rw [he, Option.map_some] at hlast
      obtain ⟨i, hi, hei⟩ := Option.map_eq_some_iff.mp hlast.symm
      rw [hi]
      exact EventIndex.represents_singleton hei.symm
  · have hset : ids.foldl (fun set id => if id ∈ hasChildrenRoaring rows then set else insert id set) ∅ ≠
        (∅ : RoaringBitmap) := by
      intro hset
      rw [hset] at hchildless
      exact hempty hchildless.eq_nil
    rw [if_neg hset, if_neg (by rwa [List.isEmpty_iff])]
    exact hchildless

end

theorem mem_mergeTrueExtremities {trueExtremities currentSet phantomTips : List EventId} {e : EventId} :
    e ∈ mergeTrueExtremities trueExtremities currentSet phantomTips ↔
      e ∈ trueExtremities ∨ e ∈ currentSet ∧ e ∉ phantomTips := by
  have hfold : ∀ set : List EventId,
      e ∈ currentSet.foldl (fun set eid => if eid ∈ phantomTips then set else set.insert eid) set ↔
        e ∈ set ∨ e ∈ currentSet ∧ e ∉ phantomTips := by
    induction currentSet with
    | nil => simp
    | cons eid currentSet ih =>
      intro set
      rw [List.foldl_cons, ih, List.mem_cons]
      by_cases hid : eid ∈ phantomTips
      · rw [if_pos hid]
        refine or_congr_right (and_congr_left fun hnot => ?_)
        rw [or_iff_right]
        rintro rfl
        exact hnot hid
      · rw [if_neg hid, List.mem_insert_iff, or_and_right, or_comm (a := e = eid), or_assoc]
        refine or_congr_right (or_congr_left ?_)
        exact ⟨fun heq => ⟨heq, heq ▸ hid⟩, fun hi => hi.1⟩
  rw [mergeTrueExtremities, hfold, List.mem_dedup]

theorem merge_represents {idx : EventIndex} {tb cb pb : RoaringBitmap}
    {trueExtremities currentSet phantomTips : List EventId}
    (ht : idx.Represents tb trueExtremities) (hc : idx.Represents cb currentSet)
    (hp : idx.Represents pb phantomTips) :
    idx.Represents (mergeTrueExtremitiesRoaring tb cb pb)
      (mergeTrueExtremities trueExtremities currentSet phantomTips) := by
  refine EventIndex.represents_of_mem_iff ?_ ?_ fun e i he => ?_
  · intro e he
    rcases mem_mergeTrueExtremities.mp he with he | he
    · exact ht.indexed e he
    · exact hc.indexed e he.1
  · intro i hi
    rcases Finset.mem_union.mp hi with hi | hi
    · exact ht.named i hi
    · exact hc.named i (Finset.mem_sdiff.mp hi).1
  · rw [mergeTrueExtremitiesRoaring, Finset.mem_union, Finset.mem_sdiff, mem_mergeTrueExtremities,
      ht.mem_iff he, hc.mem_iff he, hp.mem_iff he]

/-- The bitmap versions of phantom detection, of the true extremities and of merging return
exactly the indices of what the versions over sets return. -/
theorem roaring_agrees {idx : EventIndex} {graph : Graph} {rows : List RoaringBitmap}
    (h : idx.Tabulates graph rows) :
    (∀ stored b, idx.Represents b stored →
      idx.Represents (detectPhantomExtremitiesRoaring rows b) (detectPhantomExtremities graph stored)) ∧
    (∀ sorted ids, sorted.map idx.index = ids.map some →
      idx.Represents (calculateTrueExtremitiesRoaring rows ids) (calculateTrueExtremities graph sorted)) ∧
    ∀ trueExtremities currentSet phantomTips tb cb pb, idx.Represents tb trueExtremities →
      idx.Represents cb currentSet → idx.Represents pb phantomTips →
        idx.Represents (mergeTrueExtremitiesRoaring tb cb pb)
          (mergeTrueExtremities trueExtremities currentSet phantomTips) :=
  ⟨fun _ _ hb => detectPhantom_represents h hb, fun _ _ hs => calculateTrue_represents h hs,
    fun _ _ _ _ _ _ ht hc hp => merge_represents ht hc hp⟩

/-- `$b` comes after `$a` and after an event without an index. -/
def pairGraph : Graph := (AList.insert "$a" ["$a", "$b"] ∅).insert "$b" ["$a", "$unknown"]

def pairIndex : EventIndex where
  index e := if e = "$a" then some 0 else if e = "$b" then some 1 else none
  injective a b i ha hb := by grind

theorem pair_tabulates : pairIndex.Tabulates pairGraph [{0, 1}, {0}] := by
  refine ⟨by decide, fun r hr => .inr ?_⟩
  rcases List.mem_cons.mp hr with rfl | hr
  · exact ⟨⟨"$a", ["$a", "$b"]⟩, by decide, by decide⟩
  · rw [List.mem_singleton.mp hr]
    exact ⟨⟨"$b", ["$a", "$unknown"]⟩, by decide, by decide⟩

theorem roaring_agrees_pair :
    pairIndex.Represents (calculateTrueExtremitiesRoaring [{0, 1}, {0}] [0, 1])
      (calculateTrueExtremities pairGraph ["$a", "$b"]) ∧
    calculateTrueExtremities pairGraph ["$a", "$b"] = ["$b"] ∧
    pairIndex.Represents (detectPhantomExtremitiesRoaring [{0, 1}, {0}] {0})
      (detectPhantomExtremities pairGraph ["$a"]) := by
  obtain ⟨hphantom, htrue, -⟩ := roaring_agrees pair_tabulates
  refine ⟨htrue ["$a", "$b"] [0, 1] rfl, by decide, hphantom ["$a"] {0} ?_⟩
  exact EventIndex.represents_singleton rfl

end Congruent.Extremities
