import Congruent.KahnSort

/-!
# The order of Kahn's algorithm

`kahn_sort` lists every node once: the nodes that are not behind a cycle, each the
least in key of those whose parents are out, and then the others by key. With
distinct keys the order of the input does not matter.
-/

namespace Congruent

open Greedy

section
variable {Id K : Type} [LinearOrder K]

/-- The key of the node `x` is at most that of the node `y`. -/
def KeyLe (nodes : List (Node Id K)) (x y : Id) : Prop :=
  ∀ n ∈ nodes, ∀ m ∈ nodes, n.id = x → m.id = y → n.key ≤ m.key

def Acyclic (nodes : List (Node Id K)) : Prop :=
  ∀ x, ¬ Relation.TransGen (InGraph (IsNode nodes) (IsParent nodes)) x x

/-- `x` is the least in key of the nodes that are ready after `done`. -/
def LeastReady (nodes : List (Node Id K)) (done : List Id) (x : Id) : Prop :=
  NodeReady nodes done x ∧ ∀ y, NodeReady nodes done y → KeyLe nodes x y

structure KahnOrder (nodes : List (Node Id K)) (greedy cyclic : List Id) : Prop where
  perm : (greedy ++ cyclic).Perm (nodes.map (·.id))
  least : ∀ pre x post, greedy = pre ++ x :: post → LeastReady nodes pre x
  behind : ∀ x, x ∈ cyclic ↔ BehindCycle (IsNode nodes) (IsParent nodes) x
  by_key : cyclic.Pairwise (KeyLe nodes)

variable [DecidableEq Id] {nodes : List (Node Id K)} (hn : (nodes.map (·.id)).Nodup)
include hn

omit [LinearOrder K] in
theorem exists_key (hne : nodes ≠ []) : ∃ key : Id → K, ∀ n ∈ nodes, n.key = key n.id := by
  obtain ⟨n₀, hn₀⟩ := List.exists_mem_of_ne_nil nodes hne
  refine ⟨fun x => ((nodes.find? fun n => n.id = x).getD n₀).key, fun n hm => ?_⟩
  cases hf : nodes.find? fun n' => n'.id = n.id with
  | none => simpa using List.find?_eq_none.mp hf n hm
  | some n' =>
    have hid : n'.id = n.id := by simpa using List.find?_some hf
    simp only [hf, Option.getD_some, node_unique hn (List.mem_of_find?_eq_some hf) hm hid]

theorem kahnSort_order : ∃ greedy cyclic, kahnSort nodes = greedy ++ cyclic ∧ KahnOrder nodes greedy cyclic := by
  by_cases hne : nodes = []
  · subst hne
    refine ⟨[], [], rfl, .refl _, by simp, fun x => ⟨by simp, fun h => ?_⟩, .nil⟩
    obtain ⟨p, ⟨hx, -⟩, -⟩ := h.has_parent
    cases hx
  obtain ⟨key, hkey⟩ := exists_key hn hne
  obtain ⟨l₁, l₂, he, hg, hnd, hmem, hsorted⟩ := kahnSort_greedy hn hkey
  have hle : ∀ x y, key x ≤ key y → KeyLe nodes x y := by
    rintro _ _ h n hn m hm rfl rfl
    rwa [hkey n hn, hkey m hm]
  refine ⟨l₁, l₂, he, ?_, fun pre x post hl => ?_, fun x => ?_, hsorted.imp (hle _ _)⟩
  · refine (List.perm_ext_iff_of_nodup ?_ hn).mpr fun x => ?_
    · exact List.Nodup.append hg.nodup.1 hnd fun x hx hx' => ((hmem x).mp hx').2 hx
    · rw [List.mem_append, hmem]
      refine ⟨?_, fun hx => (em (x ∈ l₁)).imp_right fun h => ⟨hx, h⟩⟩
      rintro (h | h)
      · exact hg.are_elem x h
      · exact h.1
  · obtain ⟨hready, hmin⟩ := (hl ▸ hg).least
    rw [List.nil_append] at hready hmin
    exact ⟨hready, fun y hy => hle _ _ (hmin y hy)⟩
  · have hU : ∀ y, IsNode nodes y → y ∈ nodes.map (·.id) := fun _ hy => hy
    exact (hmem x).trans (hg.left_iff hU)

/-- Kahn's algorithm is the greedy order: parents first, the least ready node
next, what is behind a cycle last. -/
theorem kahn_sort_greedy_order :
    (∃ greedy cyclic, kahnSort nodes = greedy ++ cyclic ∧ KahnOrder nodes greedy cyclic) ∧
    (Acyclic nodes → ∀ pre x post, kahnSort nodes = pre ++ x :: post → LeastReady nodes pre x) ∧
    ∀ nodes', nodes.Perm nodes' → (nodes.map (·.key)).Nodup → kahnSort nodes = kahnSort nodes' := by
  obtain ⟨greedy, cyclic, he, horder⟩ := kahnSort_order hn
  refine ⟨⟨greedy, cyclic, he, horder⟩, fun hacyclic pre x post hsplit => ?_, fun nodes' hperm hkeys => ?_⟩
  · have hnil : cyclic = [] := List.eq_nil_iff_forall_not_mem.mpr fun y hy => by
      obtain ⟨z, -, hz⟩ := (horder.behind y).mp hy
      exact hacyclic z hz
    rw [he, hnil, List.append_nil] at hsplit
    exact horder.least pre x post hsplit
  · by_cases hne : nodes = []
    · subst hne
      rw [List.nil_perm.mp hperm]
    obtain ⟨key, hkey⟩ := exists_key hn hne
    refine kahnSort_congr hn ((hperm.map _).nodup_iff.mp hn) hkey
      (fun n hm => hkey n (hperm.mem_iff.mpr hm)) ?_ ?_ ?_
    · intro x y hx hy hxy
      obtain ⟨n, hm, rfl⟩ := List.mem_map.mp hx
      obtain ⟨n', hm', rfl⟩ := List.mem_map.mp hy
      rw [← hkey n hm, ← hkey n' hm'] at hxy
      rw [List.inj_on_of_nodup_map hkeys hm hm' hxy]
    · intro x
      exact (hperm.map _).mem_iff
    · intro x p
      simp only [IsParent, hperm.mem_iff]

end

/-- A cycle `a`, `b` with `c` behind it, `d` with a parent outside, and `e` under `d` twice. -/
def knotted : List (Node String Nat) :=
  [⟨"c", ["a", "d"], 0⟩, ⟨"a", ["b"], 5⟩, ⟨"b", ["a"], 4⟩, ⟨"e", ["d", "d"], 1⟩, ⟨"d", ["z"], 3⟩]

theorem kahn_sort_greedy_order_knotted :
    kahnSort knotted = ["d", "e", "c", "b", "a"] ∧ kahnSort knotted.reverse = ["d", "e", "c", "b", "a"] := by
  have h := (kahn_sort_greedy_order (by decide : (knotted.map (·.id)).Nodup)).2.2 knotted.reverse
    (List.reverse_perm knotted).symm (by decide)
  have hs : kahnSort knotted = ["d", "e", "c", "b", "a"] := by decide
  exact ⟨hs, h ▸ hs⟩

end Congruent
