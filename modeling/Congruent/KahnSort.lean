import Mathlib.Algebra.Order.BigOperators.Group.List
import Mathlib.Algebra.Order.Ring.Nat
import Mathlib.Data.List.Sigma
import Congruent.Greedy

/-!
# Kahn's algorithm

The topological sort of `utils/kahns_sort.rs`: in-degree counts, a min-heap of
the nodes without pending parents, and the nodes on cycles appended by key. Its
output is the greedy order followed by the remaining nodes.
-/

namespace Congruent

open Greedy

/-- A node as `kahn_sort` receives it. -/
structure Node (Id K : Type) where
  id : Id
  parents : List Id
  key : K

section
variable {Id K : Type} [LinearOrder K]

abbrev Entry (Id K : Type) := Node Id K × Nat

/-- `(key, index)` compared as a tuple. -/
def Entry.le (a b : Entry Id K) : Prop := a.1.key < b.1.key ∨ (a.1.key = b.1.key ∧ a.2 ≤ b.2)

instance : DecidableRel (@Entry.le Id K _) := fun a b =>
  inferInstanceAs (Decidable (a.1.key < b.1.key ∨ (a.1.key = b.1.key ∧ a.2 ≤ b.2)))

section
variable [DecidableEq Id]

def idToIndex (nodes : List (Node Id K)) (id : Id) : Option Nat :=
  (nodes.zipIdx.reverse.find? fun e => e.1.id = id).map (·.2)

def inDegree (nodes : List (Node Id K)) (n : Node Id K) : Nat :=
  (n.parents.filter fun p => (idToIndex nodes p).isSome).length

def children (nodes : List (Node Id K)) (index : Nat) : List (Entry Id K) :=
  nodes.zipIdx.flatMap fun e => (e.1.parents.filter fun p => idToIndex nodes p = some index).map fun _ => e

end

def popMin : List (Entry Id K) → Option (Entry Id K × List (Entry Id K))
  | [] => none
  | e :: heap =>
    match popMin heap with
    | none => some (e, [])
    | some (m, rest) => if Entry.le e m then some (e, m :: rest) else some (m, e :: rest)

/-- Decrements a child's count and pushes it when none is left. -/
def release (st : (Nat → Nat) × List (Entry Id K)) (child : Entry Id K) : (Nat → Nat) × List (Entry Id K) :=
  let degree := Function.update st.1 child.2 (st.1 child.2 - 1)
  (degree, if degree child.2 = 0 then child :: st.2 else st.2)

section
variable [DecidableEq Id]

def drain (nodes : List (Node Id K)) : (fuel : Nat) → (Nat → Nat) → (heap sorted : List (Entry Id K)) →
    List (Entry Id K)
  | 0, _, _, sorted => sorted
  | fuel + 1, degree, heap, sorted =>
    match popMin heap with
    | none => sorted
    | some (e, heap) =>
      if e.2 ∈ sorted.map (·.2) then drain nodes fuel degree heap sorted
      else
        let st := (children nodes e.2).foldl release (degree, heap)
        drain nodes fuel st.1 st.2 (sorted ++ [e])

def degrees (nodes : List (Node Id K)) (index : Nat) : Nat :=
  match nodes[index]? with
  | some n => inDegree nodes n
  | none => 0

/-- At most one pop for each node and for each edge. -/
def drainFuel (nodes : List (Node Id K)) : Nat := nodes.length + (nodes.map fun n => n.parents.length).sum

def kahnDrained (nodes : List (Node Id K)) : List (Entry Id K) :=
  drain nodes (drainFuel nodes) (degrees nodes) (nodes.zipIdx.filter fun e => degrees nodes e.2 = 0) []

/-- The nodes the heap never releases, sorted by key and index. -/
def kahnRemaining (nodes : List (Node Id K)) : List (Entry Id K) :=
  (nodes.zipIdx.filter fun e => e.2 ∉ (kahnDrained nodes).map (·.2)).insertionSort Entry.le

def kahnSort (nodes : List (Node Id K)) : List Id :=
  (kahnDrained nodes ++ kahnRemaining nodes).map fun e => e.1.id

end

/-! ## The heap -/

theorem Entry.le_total (a b : Entry Id K) : Entry.le a b ∨ Entry.le b a := by
  unfold Entry.le
  rcases lt_trichotomy a.1.key b.1.key with h | h | h
  · exact Or.inl (Or.inl h)
  · rcases Nat.le_total a.2 b.2 with h' | h'
    · exact Or.inl (Or.inr ⟨h, h'⟩)
    · exact Or.inr (Or.inr ⟨h.symm, h'⟩)
  · exact Or.inr (Or.inl h)

theorem Entry.le_trans {a b c : Entry Id K} (h : Entry.le a b) (h' : Entry.le b c) : Entry.le a c := by
  unfold Entry.le at *
  rcases h with h | ⟨h, hi⟩
  · rcases h' with h' | ⟨h', _⟩
    · exact Or.inl (lt_trans h h')
    · exact Or.inl (h' ▸ h)
  · rcases h' with h' | ⟨h', hi'⟩
    · exact Or.inl (h ▸ h')
    · exact Or.inr ⟨h.trans h', Nat.le_trans hi hi'⟩

theorem Entry.key_le {a b : Entry Id K} (h : Entry.le a b) : a.1.key ≤ b.1.key := by
  rcases h with h | h
  · exact le_of_lt h
  · exact le_of_eq h.1

theorem popMin_none : ∀ {heap : List (Entry Id K)}, popMin heap = none → heap = []
  | [], _ => rfl
  | e :: heap, h => by
    unfold popMin at h
    split at h
    · cases h
    · split at h <;> cases h

theorem popMin_some : ∀ {heap rest : List (Entry Id K)} {m : Entry Id K}, popMin heap = some (m, rest) →
    heap.Perm (m :: rest) ∧ ∀ e ∈ rest, m.1.key ≤ e.1.key
  | [], _, _, h => by cases h
  | e :: heap, rest, m, h => by
    unfold popMin at h
    split at h
    · rename_i hn
      cases h
      rw [popMin_none hn]
      exact ⟨List.Perm.refl _, by simp⟩
    · rename_i m' rest' hs
      obtain ⟨hp, hm⟩ := popMin_some hs
      split at h
      · rename_i hle
        cases h
        refine ⟨List.Perm.cons _ hp, fun x hx => ?_⟩
        rcases List.mem_cons.mp hx with rfl | hx
        · exact Entry.key_le hle
        · exact le_trans (Entry.key_le hle) (hm x hx)
      · rename_i hle
        cases h
        refine ⟨(List.Perm.cons _ hp).trans (List.Perm.swap _ _ _), fun x hx => ?_⟩
        rcases List.mem_cons.mp hx with rfl | hx
        · exact Entry.key_le ((Entry.le_total _ _).resolve_left hle)
        · exact hm x hx

end

/-! ## Releasing the children -/

section
variable {Id K : Type}

theorem release_eq (degree : Nat → Nat) (heap : List (Entry Id K)) (c : Entry Id K) :
    release (degree, heap) c =
      (Function.update degree c.2 (degree c.2 - 1), if degree c.2 - 1 = 0 then c :: heap else heap) := by
  simp [release]

theorem release_degree : ∀ (cs : List (Entry Id K)) (degree : Nat → Nat) (heap : List (Entry Id K)) (i : Nat),
    (cs.foldl release (degree, heap)).1 i = degree i - (cs.filter fun e => e.2 = i).length
  | [], _, _, _ => rfl
  | c :: cs, degree, heap, i => by
    rw [List.foldl_cons, release_eq, release_degree cs]
    by_cases h : c.2 = i
    · subst h
      simp only [Function.update_self, List.filter_cons, decide_true, if_true, List.length_cons]
      omega
    · simp [Function.update_of_ne (Ne.symm h), h]

theorem release_length : ∀ (cs : List (Entry Id K)) (degree : Nat → Nat) (heap : List (Entry Id K)),
    (cs.foldl release (degree, heap)).2.length ≤ heap.length + cs.length
  | [], _, _ => Nat.le_refl _
  | c :: cs, degree, heap => by
    rw [List.foldl_cons, release_eq]
    refine Nat.le_trans (release_length cs _ _) ?_
    simp only [List.length_cons]
    split
    · simp only [List.length_cons]; omega
    · omega

/-- The heap after the children: what was there, and the children whose count
reached zero. -/
theorem mem_release : ∀ (cs : List (Entry Id K)) (degree : Nat → Nat) (heap : List (Entry Id K)) (e : Entry Id K),
    e ∈ (cs.foldl release (degree, heap)).2 →
      e ∈ heap ∨ (e ∈ cs ∧ degree e.2 - (cs.filter fun c => c.2 = e.2).length = 0)
  | [], _, _, _, h => Or.inl h
  | c :: cs, degree, heap, e, h => by
    rw [List.foldl_cons, release_eq] at h
    rcases mem_release cs _ _ e h with h | ⟨h, hd⟩
    · split at h
      · rename_i h0
        rcases List.mem_cons.mp h with rfl | h
        · refine Or.inr ⟨by simp, ?_⟩
          simp only [List.filter_cons, decide_true, if_true, List.length_cons]
          omega
        · exact Or.inl h
      · exact Or.inl h
    · refine Or.inr ⟨List.mem_cons_of_mem _ h, ?_⟩
      by_cases hc : c.2 = e.2
      · rw [← hc, Function.update_self] at hd
        simp only [List.filter_cons, hc, decide_true, if_true, List.length_cons] at hd ⊢
        omega
      · simpa [Function.update_of_ne (Ne.symm hc), hc] using hd

theorem heap_subset_release : ∀ (cs : List (Entry Id K)) (degree : Nat → Nat) (heap : List (Entry Id K)),
    heap ⊆ (cs.foldl release (degree, heap)).2
  | [], _, _ => fun _ h => h
  | c :: cs, degree, heap => fun e he => by
    rw [List.foldl_cons, release_eq]
    refine heap_subset_release cs _ _ ?_
    split
    · exact List.mem_cons_of_mem _ he
    · exact he

theorem release_mem : ∀ (cs : List (Entry Id K)) (degree : Nat → Nat) (heap : List (Entry Id K)) (e : Entry Id K),
    (∀ c ∈ cs, c.2 = e.2 → c = e) → e ∈ cs → degree e.2 - (cs.filter fun c => c.2 = e.2).length = 0 →
    e ∈ (cs.foldl release (degree, heap)).2
  | [], _, _, _, _, h, _ => by cases h
  | c :: cs, degree, heap, e, hinj, h, hd => by
    rw [List.foldl_cons, release_eq]
    by_cases hcs : e ∈ cs
    · refine release_mem cs _ _ e (fun c hc => hinj c (List.mem_cons_of_mem _ hc)) hcs ?_
      by_cases hc : c.2 = e.2
      · simp only [List.filter_cons, hc, decide_true, if_true, List.length_cons] at hd
        rw [← hc, Function.update_self, hc]
        omega
      · simpa [Function.update_of_ne (Ne.symm hc), hc] using hd
    · have hce : e = c := (List.mem_cons.mp h).resolve_right hcs
      subst hce
      have h0 : (cs.filter fun c => c.2 = e.2) = [] := by
        refine List.filter_eq_nil_iff.mpr fun c hc hce => hcs ?_
        rw [← hinj c (List.mem_cons_of_mem _ hc) (by simpa using hce)]
        exact hc
      simp only [List.filter_cons, decide_true, if_true, h0, List.length_cons, List.length_nil] at hd
      refine heap_subset_release cs _ _ ?_
      have : degree e.2 - 1 = 0 := by omega
      simp [this]

end

/-! ## Nodes by index -/

section
variable {Id K : Type} {nodes : List (Node Id K)}

theorem entry_of_node {n : Node Id K} (h : n ∈ nodes) : ∃ i, (n, i) ∈ nodes.zipIdx := by
  obtain ⟨i, hi, he⟩ := List.getElem_of_mem h
  exact ⟨i, List.mem_zipIdx_iff_getElem?.mpr (List.getElem?_eq_some_iff.mpr ⟨hi, he⟩)⟩

theorem node_of_entry {e : Entry Id K} (h : e ∈ nodes.zipIdx) : e.1 ∈ nodes :=
  List.mem_of_getElem? (List.mem_zipIdx_iff_getElem?.mp h)

def pending [DecidableEq Id] (nodes : List (Node Id K)) (done : List Id) (n : Node Id K) : List Id :=
  n.parents.filter fun p => p ∈ nodes.map (·.id) ∧ p ∉ done

variable (hn : (nodes.map (·.id)).Nodup)
include hn

theorem node_unique {n n' : Node Id K} (h : n ∈ nodes) (h' : n' ∈ nodes) (he : n.id = n'.id) : n = n' :=
  List.inj_on_of_nodup_map hn h h' he

theorem entry_unique {e e' : Entry Id K} (h : e ∈ nodes.zipIdx) (h' : e' ∈ nodes.zipIdx)
    (he : e.1.id = e'.1.id) : e = e' := by
  rw [List.mem_zipIdx_iff_getElem?] at h h'
  have hm : (nodes.map (·.id))[e.2]? = (nodes.map (·.id))[e'.2]? := by
    simp [List.getElem?_map, h, h', he]
  have hlt : e.2 < (nodes.map (·.id)).length := by
    rw [List.length_map]
    exact (List.getElem?_eq_some_iff.mp h).1
  have hi : e.2 = e'.2 := (List.getElem?_inj hlt hn).mp hm
  rw [hi] at h
  exact Prod.ext (Option.some.inj (h.symm.trans h')) hi

variable [DecidableEq Id]

theorem idToIndex_entry {e : Entry Id K} (h : e ∈ nodes.zipIdx) : idToIndex nodes e.1.id = some e.2 := by
  unfold idToIndex
  cases hf : nodes.zipIdx.reverse.find? fun e' => e'.1.id = e.1.id with
  | none =>
    have := List.find?_eq_none.mp hf e (List.mem_reverse.mpr h)
    simp at this
  | some e' =>
    have hid : e'.1.id = e.1.id := by simpa using List.find?_some hf
    have hmem := List.mem_reverse.mp (List.mem_of_find?_eq_some hf)
    rw [entry_unique hn hmem h hid]
    rfl

theorem idToIndex_isSome (p : Id) : (idToIndex nodes p).isSome = true ↔ p ∈ nodes.map (·.id) := by
  constructor
  · intro h
    unfold idToIndex at h
    cases hf : nodes.zipIdx.reverse.find? fun e => e.1.id = p with
    | none => simp [hf] at h
    | some e =>
      have hid : e.1.id = p := by simpa using List.find?_some hf
      have hmem := List.mem_reverse.mp (List.mem_of_find?_eq_some hf)
      exact List.mem_map.mpr ⟨e.1, node_of_entry hmem, hid⟩
  · intro h
    obtain ⟨n, hm, rfl⟩ := List.mem_map.mp h
    obtain ⟨i, hi⟩ := entry_of_node hm
    simp [idToIndex_entry hn hi]

theorem idToIndex_eq_some {e : Entry Id K} (h : e ∈ nodes.zipIdx) (p : Id) :
    idToIndex nodes p = some e.2 ↔ p = e.1.id := by
  constructor
  · intro hp
    have hs : p ∈ nodes.map (·.id) := (idToIndex_isSome hn p).mp (by simp [hp])
    obtain ⟨n, hm, rfl⟩ := List.mem_map.mp hs
    obtain ⟨i, hi⟩ := entry_of_node hm
    have := idToIndex_entry hn hi
    rw [hp] at this
    obtain rfl : i = e.2 := (Option.some.inj this).symm
    rw [List.mem_zipIdx_iff_getElem?] at h hi
    have hne : n = e.1 := Option.some.inj (hi.symm.trans h)
    rw [hne]
  · rintro rfl
    exact idToIndex_entry hn h

theorem degrees_entry {e : Entry Id K} (h : e ∈ nodes.zipIdx) : degrees nodes e.2 =
    (pending nodes [] e.1).length := by
  unfold degrees
  rw [List.mem_zipIdx_iff_getElem?.mp h]
  simp only [inDegree, pending]
  congr 1
  refine List.filter_congr fun p _ => ?_
  rw [Bool.eq_iff_iff, idToIndex_isSome hn p]
  simp

end

/-! ## The children of a node -/

section
variable {Id K : Type} [DecidableEq Id] {nodes : List (Node Id K)}

theorem mem_children {i : Nat} {c : Entry Id K} (h : c ∈ children nodes i) : c ∈ nodes.zipIdx := by
  obtain ⟨e, he, hc⟩ := List.mem_flatMap.mp h
  obtain ⟨_, _, rfl⟩ := List.mem_map.mp hc
  exact he

omit [DecidableEq Id] in
theorem zipIdx_entry_eq {e e' : Entry Id K} (h : e ∈ nodes.zipIdx) (h' : e' ∈ nodes.zipIdx) (hi : e.2 = e'.2) :
    e = e' := by
  rw [List.mem_zipIdx_iff_getElem?] at h h'
  rw [hi] at h
  exact Prod.ext (Option.some.inj (h.symm.trans h')) hi

omit [DecidableEq Id] in
theorem filter_flatMap_const (f : Entry Id K → List Id) (x : Entry Id K) : ∀ (L : List (Entry Id K)), L.Nodup →
    (∀ e ∈ L, e.2 = x.2 → e = x) →
    (x ∈ L → ((L.flatMap fun e => (f e).map fun _ => e).filter fun e => e.2 = x.2).length = (f x).length) ∧
      (x ∉ L → ((L.flatMap fun e => (f e).map fun _ => e).filter fun e => e.2 = x.2).length = 0)
  | [], _, _ => ⟨fun h => absurd h (by simp), fun _ => rfl⟩
  | e :: L, hL, hx => by
    have ih := filter_flatMap_const f x L (List.nodup_cons.mp hL).2 fun e' he' => hx e' (List.mem_cons_of_mem _ he')
    simp only [List.flatMap_cons, List.filter_append, List.length_append]
    by_cases he : e = x
    · subst he
      rw [ih.2 (List.nodup_cons.mp hL).1]
      exact ⟨fun _ => by simp, fun h => absurd (by simp) h⟩
    · have hne : e.2 ≠ x.2 := fun h => he (hx e (by simp) h)
      have h0 : (((f e).map fun _ => e).filter fun e => e.2 = x.2).length = 0 := by simp [hne]
      rw [h0, Nat.zero_add, List.mem_cons, or_iff_right (Ne.symm he)]
      exact ih

variable (hn : (nodes.map (·.id)).Nodup)
include hn

theorem children_count {e x : Entry Id K} (he : e ∈ nodes.zipIdx) (hx : x ∈ nodes.zipIdx) :
    ((children nodes e.2).filter fun c => c.2 = x.2).length = (x.1.parents.filter fun p => p = e.1.id).length := by
  have hnd : nodes.zipIdx.Nodup := List.Nodup.of_map _ (List.nodup_zipIdx_map_snd nodes)
  unfold children
  rw [(filter_flatMap_const _ x _ hnd fun c hc h => zipIdx_entry_eq hc hx h).1 hx]
  congr 1
  refine List.filter_congr fun p _ => ?_
  rw [Bool.eq_iff_iff]
  simp [idToIndex_eq_some hn he]

omit hn in
theorem pending_snoc (done : List Id) {id : Id} (hid : id ∈ nodes.map (·.id)) (hd : id ∉ done) (n : Node Id K) :
    (n.parents.filter fun p => p = id).length + (pending nodes (done ++ [id]) n).length =
      (pending nodes done n).length := by
  unfold pending
  induction n.parents with
  | nil => rfl
  | cons p ps ih =>
    rw [List.filter_cons, List.filter_cons, List.filter_cons]
    by_cases hp : p = id
    · subst hp
      rw [if_pos (by simp), if_neg (by simp), if_pos (by simp [hd, List.mem_map.mp hid]), List.length_cons,
        List.length_cons]
      omega
    · have hm : (p ∈ nodes.map (·.id) ∧ p ∉ done ++ [id]) ↔ (p ∈ nodes.map (·.id) ∧ p ∉ done) := by simp [hp]
      rw [if_neg (by simp [hp])]
      by_cases hq : p ∈ nodes.map (·.id) ∧ p ∉ done
      · rw [if_pos (by simpa using hm.mpr hq), if_pos (by simpa using hq), List.length_cons, List.length_cons]
        omega
      · rw [if_neg (by simpa using mt hm.mp hq), if_neg (by simpa using hq)]
        exact ih

/-- The parent mentions still to be released. -/
def pendingSum (nodes : List (Node Id K)) (done : List Id) : Nat :=
  (nodes.map fun n => (pending nodes done n).length).sum

theorem children_length {e : Entry Id K} (he : e ∈ nodes.zipIdx) {done : List Id} (hd : e.1.id ∉ done) :
    (children nodes e.2).length + pendingSum nodes (done ++ [e.1.id]) = pendingSum nodes done := by
  have hid : e.1.id ∈ nodes.map (·.id) := List.mem_map_of_mem (node_of_entry he)
  have hch : (children nodes e.2).length =
      (nodes.map fun n => (n.parents.filter fun p => p = e.1.id).length).sum := by
    unfold children
    rw [List.length_flatMap]
    conv_rhs => rw [← List.zipIdx_map_fst 0 nodes, List.map_map]
    congr 1
    refine List.map_congr_left fun c _ => ?_
    rw [List.length_map]
    refine congrArg List.length (List.filter_congr fun p _ => ?_)
    rw [Bool.eq_iff_iff]
    simp [idToIndex_eq_some hn he]
  rw [hch]
  unfold pendingSum
  rw [← List.sum_map_add]
  congr 1
  exact List.map_congr_left fun n _ => pending_snoc done hid hd n

end

/-! ## The drained nodes are the greedy order -/

section
variable {Id K : Type} [DecidableEq Id]

def IsNode (nodes : List (Node Id K)) (x : Id) : Prop := x ∈ nodes.map (·.id)

def IsParent (nodes : List (Node Id K)) (x p : Id) : Prop := ∃ n ∈ nodes, n.id = x ∧ p ∈ n.parents

abbrev NodeReady (nodes : List (Node Id K)) : List Id → Id → Prop := Ready (IsNode nodes) (IsParent nodes)

/-- The loop invariant: counts are the pending parents, and among the nodes not
sorted yet the heap holds those with none. -/
structure DrainInv (nodes : List (Node Id K)) (degree : Nat → Nat) (heap sorted : List (Entry Id K)) : Prop where
  sorted_mem : ∀ e ∈ sorted, e ∈ nodes.zipIdx
  heap_mem : ∀ e ∈ heap, e ∈ nodes.zipIdx
  degree_eq : ∀ e ∈ nodes.zipIdx, degree e.2 = (pending nodes (sorted.map (·.1.id)) e.1).length
  heap_iff : ∀ e ∈ nodes.zipIdx, e.2 ∉ sorted.map (·.2) → (e ∈ heap ↔ degree e.2 = 0)

variable {nodes : List (Node Id K)} (hn : (nodes.map (·.id)).Nodup)

theorem pending_eq_nil {done : List Id} {n : Node Id K} :
    (pending nodes done n).length = 0 ↔ ∀ p ∈ n.parents, p ∈ nodes.map (·.id) → p ∈ done := by
  simp only [pending, List.length_eq_zero_iff, List.filter_eq_nil_iff, decide_eq_true_eq, not_and, not_not]

include hn

theorem ready_iff {done : List Id} {n : Node Id K} (h : n ∈ nodes) :
    NodeReady nodes done n.id ↔ n.id ∉ done ∧ (pending nodes done n).length = 0 := by
  rw [pending_eq_nil]
  constructor
  · rintro ⟨_, hd, hp⟩
    exact ⟨hd, fun p hpn hpm => hp p ⟨n, h, rfl, hpn⟩ hpm⟩
  · rintro ⟨hd, hp⟩
    refine ⟨List.mem_map_of_mem h, hd, ?_⟩
    rintro p ⟨n', hn', he, hpn⟩ hpm
    rw [node_unique hn hn' h he] at hpn
    exact hp p hpn hpm

omit [DecidableEq Id] in
theorem sorted_index_iff {sorted : List (Entry Id K)} (hs : ∀ e ∈ sorted, e ∈ nodes.zipIdx) {e : Entry Id K}
    (he : e ∈ nodes.zipIdx) : e.2 ∈ sorted.map (·.2) ↔ e.1.id ∈ sorted.map (·.1.id) := by
  constructor
  · intro h
    obtain ⟨e', he', hi⟩ := List.mem_map.mp h
    rw [← zipIdx_entry_eq (hs e' he') he hi]
    exact List.mem_map_of_mem he'
  · intro h
    obtain ⟨e', he', hi⟩ := List.mem_map.mp h
    rw [← entry_unique hn (hs e' he') he hi]
    exact List.mem_map_of_mem he'

section
variable {degree : Nat → Nat} {heap rest sorted : List (Entry Id K)} {e : Entry Id K}

omit hn in
theorem DrainInv.skip (hI : DrainInv nodes degree heap sorted) (hp : heap.Perm (e :: rest))
    (hv : e.2 ∈ sorted.map (·.2)) : DrainInv nodes degree rest sorted := by
  refine ⟨hI.sorted_mem, fun x hx => hI.heap_mem x (hp.mem_iff.mpr (List.mem_cons_of_mem _ hx)), hI.degree_eq,
    fun x hx hns => ?_⟩
  rw [← hI.heap_iff x hx hns, hp.mem_iff, List.mem_cons, or_iff_right]
  rintro rfl
  exact hns hv

/-- Popping an unvisited entry and releasing its children keeps the invariant. -/
theorem DrainInv.take (hI : DrainInv nodes degree heap sorted) (hp : heap.Perm (e :: rest))
    (hv : e.2 ∉ sorted.map (·.2)) :
    DrainInv nodes ((children nodes e.2).foldl release (degree, rest)).1
      ((children nodes e.2).foldl release (degree, rest)).2 (sorted ++ [e]) := by
  have he : e ∈ nodes.zipIdx := hI.heap_mem e (hp.mem_iff.mpr (by simp))
  have hid : e.1.id ∈ nodes.map (·.id) := List.mem_map_of_mem (node_of_entry he)
  have hdone : e.1.id ∉ sorted.map (·.1.id) := mt (sorted_index_iff hn hI.sorted_mem he).mpr hv
  have hrest : ∀ x ∈ rest, x ∈ heap := fun x hx => hp.mem_iff.mpr (List.mem_cons_of_mem _ hx)
  have hdeg : ∀ x ∈ nodes.zipIdx, ((children nodes e.2).foldl release (degree, rest)).1 x.2 =
      (pending nodes ((sorted ++ [e]).map (·.1.id)) x.1).length := by
    intro x hx
    rw [release_degree, hI.degree_eq x hx, children_count hn he hx, List.map_append, List.map_singleton,
      ← pending_snoc _ hid hdone x.1]
    omega
  refine ⟨fun x hx => ?_, fun x hx => ?_, hdeg, fun x hx hns => ?_⟩
  · rcases List.mem_append.mp hx with h | h
    · exact hI.sorted_mem x h
    · rw [List.mem_singleton.mp h]; exact he
  · rcases mem_release _ _ _ x hx with h | h
    · exact hI.heap_mem x (hrest x h)
    · exact mem_children h.1
  · rw [List.map_append, List.mem_append, not_or] at hns
    constructor
    · intro h
      rw [release_degree]
      rcases mem_release _ _ _ x h with h | h
      · rw [(hI.heap_iff x hx hns.1).mp (hrest x h)]
        exact Nat.zero_sub _
      · exact h.2
    · intro h0
      rw [release_degree] at h0
      by_cases hc : x ∈ children nodes e.2
      · exact release_mem _ _ _ x (fun c hc hi => zipIdx_entry_eq (mem_children hc) hx hi) hc h0
      · have hnil : ((children nodes e.2).filter fun c => c.2 = x.2) = [] := by
          refine List.filter_eq_nil_iff.mpr fun c hcm hci => hc ?_
          rw [← zipIdx_entry_eq (mem_children hcm) hx (by simpa using hci)]
          exact hcm
        rw [hnil] at h0
        have hxh := (hI.heap_iff x hx hns.1).mpr h0
        rcases List.mem_cons.mp (hp.mem_iff.mp hxh) with rfl | h
        · exact absurd (by simp) hns.2
        · exact heap_subset_release _ _ _ h

end

variable [LinearOrder K] {key : Id → K} (hkey : ∀ n ∈ nodes, n.key = key n.id)
include hkey

/-- Draining from a state of the invariant appends the greedy order. -/
theorem drain_greedy : ∀ (fuel : Nat) (degree : Nat → Nat) (heap sorted : List (Entry Id K)),
    DrainInv nodes degree heap sorted → heap.length + pendingSum nodes (sorted.map (·.1.id)) ≤ fuel →
    ∃ l, drain nodes fuel degree heap sorted = sorted ++ l ∧ (∀ e ∈ l, e ∈ nodes.zipIdx) ∧
      IsGreedy (NodeReady nodes) key (sorted.map (·.1.id)) (l.map (·.1.id)) := by
  intro fuel degree heap sorted hI hf
  have hstop : ∀ sorted degree, DrainInv nodes degree [] sorted →
      ∀ x, ¬ NodeReady nodes (sorted.map (·.1.id)) x := by
    intro sorted degree hI x hr
    obtain ⟨n, hm, rfl⟩ := List.mem_map.mp hr.1
    obtain ⟨i, hi⟩ := entry_of_node hm
    obtain ⟨hd, h0⟩ := (ready_iff hn hm).mp hr
    have := (hI.heap_iff _ hi (mt (sorted_index_iff hn hI.sorted_mem hi).mp hd)).mpr ((hI.degree_eq _ hi).trans h0)
    cases this
  induction fuel generalizing degree heap sorted with
  | zero =>
    have : heap = [] := List.eq_nil_of_length_eq_zero (by omega)
    subst this
    exact ⟨[], by simp [drain], by simp, .stop (hstop _ _ hI)⟩
  | succ fuel ih =>
    unfold drain
    cases hpop : popMin heap with
    | none =>
      rw [popMin_none hpop] at hI
      exact ⟨[], by simp, by simp, .stop (hstop _ _ hI)⟩
    | some p =>
      obtain ⟨e, rest⟩ := p
      obtain ⟨hp, hmin⟩ := popMin_some hpop
      have hlen : heap.length = rest.length + 1 := by rw [hp.length_eq, List.length_cons]
      have he : e ∈ nodes.zipIdx := hI.heap_mem e (hp.mem_iff.mpr (by simp))
      simp only
      by_cases hv : e.2 ∈ sorted.map (·.2)
      · rw [if_pos hv]
        exact ih degree rest sorted (hI.skip hp hv) (by omega)
      · rw [if_neg hv]
        have hdone : e.1.id ∉ sorted.map (·.1.id) := mt (sorted_index_iff hn hI.sorted_mem he).mpr hv
        have hch := children_length hn he hdone
        have hrl := release_length (children nodes e.2) degree rest
        obtain ⟨l, hl, hmem, hg⟩ := ih _ _ _ (hI.take hn hp hv)
          (by simp only [List.map_append, List.map_singleton]; omega)
        refine ⟨e :: l, by rw [hl]; simp, ?_, .pick ?_ (fun y hy => ?_) ?_⟩
        · intro x hx
          rcases List.mem_cons.mp hx with rfl | hx
          · exact he
          · exact hmem x hx
        · refine (ready_iff hn (node_of_entry he)).mpr ⟨hdone, ?_⟩
          rw [← hI.degree_eq e he]
          exact (hI.heap_iff e he hv).mp (hp.mem_iff.mpr (by simp))
        · obtain ⟨n, hm, rfl⟩ := List.mem_map.mp hy.1
          obtain ⟨i, hi⟩ := entry_of_node hm
          obtain ⟨hd, h0⟩ := (ready_iff hn hm).mp hy
          have hx := (hI.heap_iff _ hi (mt (sorted_index_iff hn hI.sorted_mem hi).mp hd)).mpr
            ((hI.degree_eq _ hi).trans h0)
          rw [← hkey _ (node_of_entry he), ← hkey _ hm]
          rcases List.mem_cons.mp (hp.mem_iff.mp hx) with h | h
          · rw [← h]
          · exact hmin _ h
        · simpa using hg

theorem kahnDrained_greedy : (∀ e ∈ kahnDrained nodes, e ∈ nodes.zipIdx) ∧
    IsGreedy (NodeReady nodes) key [] ((kahnDrained nodes).map (·.1.id)) := by
  have hI : DrainInv nodes (degrees nodes) (nodes.zipIdx.filter fun e => degrees nodes e.2 = 0) [] := by
    refine ⟨by simp, fun e he => (List.mem_filter.mp he).1, fun e he => degrees_entry hn he, fun e he _ => ?_⟩
    simp [List.mem_filter, he]
  have hsum : pendingSum nodes [] ≤ (nodes.map fun n => n.parents.length).sum :=
    List.sum_le_sum fun n _ => List.length_filter_le _ _
  obtain ⟨l, hl, hmem, hg⟩ := drain_greedy hn hkey (drainFuel nodes) _ _ _ hI <|
    Nat.add_le_add (Nat.le_trans (List.length_filter_le _ _) (Nat.le_of_eq List.length_zipIdx)) hsum
  rw [List.nil_append] at hl
  unfold kahnDrained
  rw [hl]
  exact ⟨hmem, hg⟩

/-- The sort is the greedy order, followed by the nodes it cannot release in
the order of their keys. -/
theorem kahnSort_greedy : ∃ l₁ l₂, kahnSort nodes = l₁ ++ l₂ ∧ IsGreedy (NodeReady nodes) key [] l₁ ∧
    l₂.Nodup ∧ (∀ x, x ∈ l₂ ↔ IsNode nodes x ∧ x ∉ l₁) ∧ l₂.Pairwise fun x y => key x ≤ key y := by
  obtain ⟨hmem, hg⟩ := kahnDrained_greedy hn hkey
  have hperm := List.perm_insertionSort Entry.le (nodes.zipIdx.filter fun e => e.2 ∉ (kahnDrained nodes).map (·.2))
  have hrem : ∀ e ∈ kahnRemaining nodes, e ∈ nodes.zipIdx := fun e he =>
    (List.mem_filter.mp (hperm.mem_iff.mp he)).1
  refine ⟨_, (kahnRemaining nodes).map (·.1.id), by unfold kahnSort; rw [List.map_append], hg, ?_, ?_, ?_⟩
  · refine List.Nodup.map_on (fun e he e' he' h => entry_unique hn (hrem e he) (hrem e' he') h) ?_
    refine hperm.nodup_iff.mpr (List.Nodup.filter _ ?_)
    exact List.Nodup.of_map _ (List.nodup_zipIdx_map_snd nodes)
  · intro x
    constructor
    · intro h
      obtain ⟨e, he, rfl⟩ := List.mem_map.mp h
      have hns : e.2 ∉ (kahnDrained nodes).map (·.2) := by
        simpa using (List.mem_filter.mp (hperm.mem_iff.mp he)).2
      exact ⟨List.mem_map_of_mem (node_of_entry (hrem e he)), mt (sorted_index_iff hn hmem (hrem e he)).mpr hns⟩
    · rintro ⟨hx, hns⟩
      obtain ⟨n, hm, rfl⟩ := List.mem_map.mp hx
      obtain ⟨i, hi⟩ := entry_of_node hm
      refine List.mem_map.mpr ⟨(n, i), hperm.mem_iff.mpr (List.mem_filter.mpr ⟨hi, ?_⟩), rfl⟩
      simpa using mt (sorted_index_iff hn hmem hi).mp hns
  · rw [List.pairwise_map]
    have : (kahnRemaining nodes).Pairwise Entry.le := by
      have : Std.Total (@Entry.le Id K _) := ⟨Entry.le_total⟩
      have : IsTrans (Entry Id K) Entry.le := ⟨fun a b c => Entry.le_trans⟩
      exact List.pairwise_insertionSort _ _
    refine List.Pairwise.imp_of_mem (fun {e e'} he he' h => ?_) this
    rw [← hkey _ (node_of_entry (hrem e he)), ← hkey _ (node_of_entry (hrem e' he'))]
    exact Entry.key_le h

end

/-- The sort depends on the nodes, their parents and their keys as sets, not on
the order they are listed in. -/
theorem kahnSort_congr {Id K : Type} [DecidableEq Id] [LinearOrder K] {nodes nodes' : List (Node Id K)}
    (hn : (nodes.map (·.id)).Nodup) (hn' : (nodes'.map (·.id)).Nodup) {key : Id → K}
    (hkey : ∀ n ∈ nodes, n.key = key n.id) (hkey' : ∀ n ∈ nodes', n.key = key n.id)
    (hinj : ∀ x y, IsNode nodes x → IsNode nodes y → key x = key y → x = y)
    (hnode : ∀ x, IsNode nodes x ↔ IsNode nodes' x)
    (hparent : ∀ x p, IsParent nodes x p ↔ IsParent nodes' x p) : kahnSort nodes = kahnSort nodes' := by
  obtain ⟨l₁, l₂, h, hg, hnd, hm, hp⟩ := kahnSort_greedy hn hkey
  obtain ⟨l₁', l₂', h', hg', hnd', hm', hp'⟩ := kahnSort_greedy hn' hkey'
  have hready : ∀ done x, NodeReady nodes' done x ↔ NodeReady nodes done x := fun done x => by
    simp only [NodeReady, Ready, hnode, hparent]
  have h₁ : l₁ = l₁' := hg.unique (fun hx hy he => hinj _ _ hx.1 hy.1 he) (hg'.congr hready fun _ _ _ => rfl)
  have h₂ : l₂ = l₂' := by
    refine List.Perm.eq_of_pairwise (fun x y hx hy hxy hyx => ?_) hp hp' ?_
    · exact hinj x y ((hm x).mp hx).1 ((hnode y).mpr ((hm' y).mp hy).1) (le_antisymm hxy hyx)
    refine (List.perm_ext_iff_of_nodup hnd hnd').mpr fun x => ?_
    rw [hm, hm', hnode, h₁]
  rw [h, h', h₁, h₂]

example : kahnSort (K := Nat) [⟨"b", ["a"], 0⟩, ⟨"a", [], 2⟩, ⟨"c", ["z"], 1⟩] = ["c", "a", "b"] := by decide

example : kahnSort (K := Nat) [⟨"b", ["a"], 0⟩, ⟨"a", ["b"], 2⟩, ⟨"c", [], 3⟩] = ["c", "b", "a"] := by decide

end Congruent
