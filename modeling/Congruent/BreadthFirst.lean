import Mathlib.Data.List.Basic
import Mathlib.Data.List.Nodup
import Mathlib.Data.Finset.Card

/-!
# Search level by level

Nodes are visited in levels: first the roots, then what the nodes of the last level lead to
and no level had. What the search visits, and in which order, follows from one invariant
(`Level`) that the roots satisfy and a level keeps.
-/

namespace BreadthFirst

variable {α : Type} [DecidableEq α]

/-- `xs` without what was seen and without repetitions, in order. -/
def fresh (seen : List α) : List α → List α
  | [] => []
  | x :: xs => if x ∈ seen then fresh seen xs else x :: fresh (seen ++ [x]) xs

def firsts (xs : List α) : List α := fresh [] xs

theorem mem_append_fresh (xs : List α) :
    ∀ (seen : List α) (y : α), y ∈ seen ++ fresh seen xs ↔ y ∈ seen ∨ y ∈ xs := by
  induction xs with
  | nil => intro seen y; simp [fresh]
  | cons x xs ih =>
    intro seen y
    unfold fresh
    split
    · rename_i hx
      rw [ih seen y, List.mem_cons]
      constructor
      · exact fun h => h.imp_right Or.inr
      · rintro (h | rfl | h)
        · exact Or.inl h
        · exact Or.inl hx
        · exact Or.inr h
    · rw [show seen ++ x :: fresh (seen ++ [x]) xs = (seen ++ [x]) ++ fresh (seen ++ [x]) xs by simp,
        ih (seen ++ [x]) y, List.mem_append, List.mem_singleton, List.mem_cons, or_assoc]

theorem nodup_append_fresh (xs : List α) : ∀ seen : List α, seen.Nodup → (seen ++ fresh seen xs).Nodup := by
  induction xs with
  | nil => intro seen h; simpa [fresh] using h
  | cons x xs ih =>
    intro seen h
    unfold fresh
    split
    · exact ih seen h
    · rename_i hx
      have hseen : (seen ++ [x]).Nodup := by
        rw [List.nodup_append]
        refine ⟨h, List.nodup_singleton x, ?_⟩
        intro a ha b hb
        rw [List.mem_singleton.mp hb]
        exact fun hab => hx (hab ▸ ha)
      have hall := ih (seen ++ [x]) hseen
      rwa [List.append_assoc, List.singleton_append] at hall

theorem fresh_append (xs ys : List α) : ∀ seen : List α,
    fresh seen (xs ++ ys) = fresh seen xs ++ fresh (seen ++ fresh seen xs) ys := by
  induction xs with
  | nil => intro seen; simp [fresh]
  | cons x xs ih =>
    intro seen
    rw [List.cons_append, fresh, fresh]
    split
    · exact ih seen
    · rw [ih (seen ++ [x]), List.cons_append]
      simp only [List.append_assoc, List.singleton_append]

theorem firsts_append (xs ys : List α) : firsts (xs ++ ys) = firsts xs ++ fresh (firsts xs) ys := by
  rw [firsts, fresh_append, List.nil_append, firsts]

theorem mem_firsts {xs : List α} {x : α} : x ∈ firsts xs ↔ x ∈ xs := by
  have h := mem_append_fresh xs [] x
  rwa [List.nil_append, or_iff_right List.not_mem_nil] at h

theorem nodup_firsts (xs : List α) : (firsts xs).Nodup := by
  have h := nodup_append_fresh xs [] List.nodup_nil
  rwa [List.nil_append] at h

/-! ## Distance from the roots -/

section
variable (roots : List α) (succ : α → List α)

/-- `x` ends a path of `n` steps from a root. -/
def ReachedIn : Nat → α → Prop
  | 0, x => x ∈ roots
  | n + 1, x => ∃ y, ReachedIn n y ∧ x ∈ succ y

/-- No path to `b` is shorter than every path to `a`. -/
def NotFarther (a b : α) : Prop := ∀ n, ReachedIn roots succ n b → ∃ m, m ≤ n ∧ ReachedIn roots succ m a

/-- `order` lists the nodes reachable from the roots, each once, level by level, and within a
level as they are first met in the lists of the nodes before. -/
structure Order (order : List α) : Prop where
  nodup : order.Nodup
  mem : ∀ x, x ∈ order ↔ ∃ n, ReachedIn roots succ n x
  levels : order.Pairwise (NotFarther roots succ)
  met : order = firsts (roots ++ order.flatMap succ)

/-- The search before level `n`: `done` has the levels before it, `current` is the level. -/
structure Level (n : Nat) (done current : List α) : Prop where
  mem_done : ∀ x, x ∈ done ↔ ∃ m, m < n ∧ ReachedIn roots succ m x
  mem_seen : ∀ x, x ∈ done ++ current ↔ ∃ m, m ≤ n ∧ ReachedIn roots succ m x
  levels : (done ++ current).Pairwise (NotFarther roots succ)
  met : done ++ current = firsts (roots ++ done.flatMap succ)

end

namespace Level
variable {roots : List α} {succ : α → List α} {n : Nat} {done current : List α}

theorem nodup (h : Level roots succ n done current) : (done ++ current).Nodup := by
  rw [h.met]
  exact nodup_firsts _

theorem start (roots : List α) (succ : α → List α) : Level roots succ 0 [] (firsts roots) where
  mem_done x := by simp
  mem_seen x := by
    rw [List.nil_append, mem_firsts]
    constructor
    · exact fun h => ⟨0, Nat.le_refl 0, h⟩
    · rintro ⟨m, hm, h⟩
      obtain rfl : m = 0 := by omega
      exact h
  levels := by
    refine List.Pairwise.imp_of_mem ?_ (nodup_firsts roots)
    intro a b ha hb _ m hm
    exact ⟨0, Nat.zero_le m, mem_firsts.mp ha⟩
  met := by rw [List.flatMap_nil, List.append_nil, List.nil_append]

theorem lt_of_notMem (h : Level roots succ n done current) {x : α} (hx : x ∉ done ++ current) {m : Nat}
    (hm : ReachedIn roots succ m x) : n < m := by
  by_contra hle
  exact hx ((h.mem_seen x).mpr ⟨m, by omega, hm⟩)

theorem mem_next (h : Level roots succ n done current) (x : α) :
    (x ∈ done ++ current ∨ x ∈ current.flatMap succ) ↔ ∃ m, m ≤ n + 1 ∧ ReachedIn roots succ m x := by
  constructor
  · rintro (hx | hx)
    · obtain ⟨m, hm, hr⟩ := (h.mem_seen x).mp hx
      exact ⟨m, by omega, hr⟩
    · obtain ⟨y, hy, hxy⟩ := List.mem_flatMap.mp hx
      obtain ⟨m, hm, hr⟩ := (h.mem_seen y).mp (List.mem_append_right _ hy)
      exact ⟨m + 1, by omega, y, hr, hxy⟩
  · rintro ⟨m, hm, hr⟩
    cases m with
    | zero => exact Or.inl ((h.mem_seen x).mpr ⟨0, Nat.zero_le n, hr⟩)
    | succ m =>
      obtain ⟨y, hy, hxy⟩ := hr
      rcases List.mem_append.mp ((h.mem_seen y).mpr ⟨m, by omega, hy⟩) with hd | hc
      · -- A node of an earlier level leads to one that was seen.
        obtain ⟨k, hk, hky⟩ := (h.mem_done y).mp hd
        exact Or.inl ((h.mem_seen x).mpr ⟨k + 1, by omega, y, hky, hxy⟩)
      · exact Or.inr (List.mem_flatMap.mpr ⟨y, hc, hxy⟩)

theorem next (h : Level roots succ n done current) :
    Level roots succ (n + 1) (done ++ current) (fresh (done ++ current) (current.flatMap succ)) := by
  have hmem : ∀ x, x ∈ (done ++ current) ++ fresh (done ++ current) (current.flatMap succ) ↔
      ∃ m, m ≤ n + 1 ∧ ReachedIn roots succ m x := fun x => by rw [mem_append_fresh, h.mem_next x]
  have hnodup := nodup_append_fresh (current.flatMap succ) (done ++ current) h.nodup
  have hnew : ∀ b ∈ fresh (done ++ current) (current.flatMap succ), b ∉ done ++ current := fun b hb hold =>
    (List.nodup_append.mp hnodup).2.2 b hold b hb rfl
  refine ⟨fun x => ?_, hmem, ?_, ?_⟩
  · rw [h.mem_seen x]
    simp only [Nat.lt_succ_iff]
  · -- A node of the new level is at distance `n + 1`, which none before it exceeds.
    rw [List.pairwise_append]
    refine ⟨h.levels, ?_, ?_⟩
    · refine List.Pairwise.imp_of_mem ?_ (List.nodup_append.mp hnodup).2.1
      intro a b ha hb _ m hm
      obtain ⟨k, hk, hka⟩ := (hmem a).mp (List.mem_append_right _ ha)
      exact ⟨k, Nat.le_trans hk (h.lt_of_notMem (hnew b hb) hm), hka⟩
    · intro a ha b hb m hm
      obtain ⟨k, hk, hka⟩ := (h.mem_seen a).mp ha
      exact ⟨k, Nat.le_trans hk (Nat.le_of_lt (h.lt_of_notMem (hnew b hb) hm)), hka⟩
  · rw [List.flatMap_append, ← List.append_assoc, firsts_append, ← h.met]

theorem finish (h : Level roots succ n done []) : Order roots succ done where
  nodup := by
    have := h.nodup
    rwa [List.append_nil] at this
  mem x := by
    constructor
    · intro hx
      obtain ⟨m, _, hr⟩ := (h.mem_done x).mp hx
      exact ⟨m, hr⟩
    · rintro ⟨m, hr⟩
      induction m generalizing x with
      | zero =>
        have := (h.mem_seen x).mpr ⟨0, Nat.zero_le n, hr⟩
        rwa [List.append_nil] at this
      | succ m ih =>
        obtain ⟨y, hy, hxy⟩ := hr
        obtain ⟨k, hk, hky⟩ := (h.mem_done y).mp (ih y hy)
        have := (h.mem_seen x).mpr ⟨k + 1, by omega, y, hky, hxy⟩
        rwa [List.append_nil] at this
  levels := by
    have := h.levels
    rwa [List.append_nil] at this
  met := by
    have := h.met
    rwa [List.append_nil] at this

theorem length_le (h : Level roots succ n done current) {nodes : List α} (hroots : roots ⊆ nodes)
    (hsucc : ∀ x, succ x ⊆ nodes) : (done ++ current).length ≤ nodes.length := by
  have hsub : done ++ current ⊆ nodes := by
    intro x hx
    rw [h.met, mem_firsts] at hx
    rcases List.mem_append.mp hx with hr | hs
    · exact hroots hr
    · obtain ⟨y, _, hy⟩ := List.mem_flatMap.mp hs
      exact hsucc y hy
  exact (List.subperm_of_subset h.nodup hsub).length_le

end Level

end BreadthFirst
