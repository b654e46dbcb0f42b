import Mathlib.Data.List.Sort
import Congruent.Descent

/-!
# Greedy topological orders

The order that repeatedly takes the ready element of least key. With keys that
tell ready elements apart there is only one. It leaves out the elements that are on
a cycle or behind one.
-/

namespace Greedy

variable {α K : Type} [LinearOrder K]

/-- An element is ready when it is not done and all its parents among the
elements are. -/
def Ready (elem : α → Prop) (parent : α → α → Prop) (done : List α) (x : α) : Prop :=
  elem x ∧ x ∉ done ∧ ∀ p, parent x p → elem p → p ∈ done

/-- `IsGreedy ready key done l`: from `done` on, the greedy choice takes `l` and
then finds nothing ready. -/
inductive IsGreedy (ready : List α → α → Prop) (key : α → K) : List α → List α → Prop
  | stop {done : List α} : (∀ x, ¬ ready done x) → IsGreedy ready key done []
  | pick {done l : List α} {x : α} : ready done x → (∀ y, ready done y → key x ≤ key y) →
      IsGreedy ready key (done ++ [x]) l → IsGreedy ready key done (x :: l)

theorem IsGreedy.unique {ready : List α → α → Prop} {key : α → K}
    (hinj : ∀ {done x y}, ready done x → ready done y → key x = key y → x = y) :
    ∀ {done l l' : List α}, IsGreedy ready key done l → IsGreedy ready key done l' → l = l'
  | _, [], _, .stop _, .stop _ => rfl
  | _, [], _, .stop h, .pick hx _ _ => absurd hx (h _)
  | _, _ :: _, _, .pick hx _ _, .stop h => absurd hx (h _)
  | _, _ :: _, _, .pick hx hmin hl, .pick hx' hmin' hl' => by
    obtain rfl := hinj hx hx' (le_antisymm (hmin _ hx') (hmin' _ hx))
    rw [hl.unique hinj hl']

theorem IsGreedy.congr {ready ready' : List α → α → Prop} {key key' : α → K}
    (h : ∀ done x, ready done x ↔ ready' done x) (hk : ∀ done x, ready done x → key x = key' x) :
    ∀ {done l : List α}, IsGreedy ready key done l → IsGreedy ready' key' done l
  | _, [], .stop hs => .stop fun x hx => hs x ((h _ x).mpr hx)
  | _, _ :: _, .pick hx hmin hl =>
    .pick ((h _ _).mp hx)
      (fun y hy => by rw [← hk _ _ hx, ← hk _ _ ((h _ y).mpr hy)]; exact hmin y ((h _ y).mpr hy))
      (hl.congr h hk)

/-! ## What is taken -/

section
variable {ready : List α → α → Prop} {key : α → K}

theorem IsGreedy.least : ∀ {pre post done : List α} {x : α}, IsGreedy ready key done (pre ++ x :: post) →
    ready (done ++ pre) x ∧ ∀ y, ready (done ++ pre) y → key x ≤ key y
  | [], _, done, _, .pick hx hmin _ => by
    rw [List.append_nil]
    exact ⟨hx, hmin⟩
  | a :: pre, _, done, _, .pick _ _ h => by
    have := h.least
    rwa [List.append_assoc, List.singleton_append] at this

theorem IsGreedy.stopped : ∀ {done l : List α}, IsGreedy ready key done l → ∀ x, ¬ ready (done ++ l) x
  | done, [], .stop h => by rwa [List.append_nil]
  | done, a :: l, .pick _ _ h => by
    have := h.stopped
    rwa [List.append_assoc, List.singleton_append] at this

end

/-! ## What is left out -/

/-- `p` is a parent of `x` among the elements. -/
def InGraph (elem : α → Prop) (parent : α → α → Prop) (x p : α) : Prop := elem x ∧ parent x p ∧ elem p

def BehindCycle (elem : α → Prop) (parent : α → α → Prop) (x : α) : Prop :=
  ∃ y, Relation.ReflTransGen (InGraph elem parent) x y ∧ Relation.TransGen (InGraph elem parent) y y

section
variable {elem : α → Prop} {parent : α → α → Prop} {key : α → K} {done l : List α} {x : α}

theorem BehindCycle.has_parent (h : BehindCycle elem parent x) : ∃ p, InGraph elem parent x p ∧
    BehindCycle elem parent p := by
  obtain ⟨y, hxy, hyy⟩ := h
  rcases Relation.ReflTransGen.cases_head hxy with rfl | ⟨p, hxp, hpy⟩
  · obtain ⟨p, hxp, hpx⟩ := Relation.TransGen.head'_iff.mp hyy
    exact ⟨p, hxp, x, hpx, hyy⟩
  · exact ⟨p, hxp, y, hpy, hyy⟩

theorem IsGreedy.nodup : ∀ {l done : List α}, IsGreedy (Ready elem parent) key done l → l.Nodup ∧ ∀ x ∈ l, x ∉ done
  | [], _, _ => ⟨List.nodup_nil, by simp⟩
  | a :: l, done, .pick ha _ h => by
    obtain ⟨hnd, hnew⟩ := h.nodup
    have hla : ∀ x ∈ l, x ∉ done ∧ x ≠ a := fun x hx => by simpa using hnew x hx
    refine ⟨List.nodup_cons.mpr ⟨fun h => (hla a h).2 rfl, hnd⟩, ?_⟩
    rintro x (_ | ⟨_, hx⟩)
    · exact ha.2.1
    · exact (hla x hx).1

theorem IsGreedy.are_elem : ∀ {l done : List α}, IsGreedy (Ready elem parent) key done l → ∀ x ∈ l, elem x
  | a :: l, _, .pick ha _ h, x, hx => by
    rcases List.mem_cons.mp hx with rfl | hx
    · exact ha.1
    · exact h.are_elem x hx

theorem IsGreedy.not_behind : ∀ {l done : List α}, IsGreedy (Ready elem parent) key done l →
    (∀ x ∈ done, ¬ BehindCycle elem parent x) → ∀ x ∈ l, ¬ BehindCycle elem parent x
  | a :: l, done, .pick ha _ h, hdone, x, hx => by
    have hna : ¬ BehindCycle elem parent a := fun hb => by
      obtain ⟨p, ⟨-, hap, hp⟩, hbp⟩ := hb.has_parent
      exact hdone p (ha.2.2 p hap hp) hbp
    rcases List.mem_cons.mp hx with rfl | hx
    · exact hna
    · refine h.not_behind (fun y hy => ?_) x hx
      rcases List.mem_append.mp hy with hy | hy
      · exact hdone y hy
      · rwa [List.mem_singleton.mp hy]

/-- When nothing is ready, each element left has a parent that is left too, and
following them comes back. -/
theorem behind_of_left {U : List α} (hU : ∀ x, elem x → x ∈ U) (hstop : ∀ x, ¬ Ready elem parent done x)
    (hx : elem x) (hleft : x ∉ done) : BehindCycle elem parent x := by
  classical
  have hparent : ∀ a, elem a ∧ a ∉ done → ∃ p, (elem p ∧ p ∉ done) ∧ InGraph elem parent a p := by
    rintro a ⟨ha, hd⟩
    have := hstop a
    simp only [Ready, not_and] at this
    push Not at this
    obtain ⟨p, hap, hp, hpd⟩ := this ha hd
    exact ⟨p, ⟨hp, hpd⟩, ha, hap, hp⟩
  choose! toParent hleftParent hin using hparent
  have hgo : ∀ n a, elem a ∧ a ∉ done →
      Descent.climb (fun a => if elem a ∧ a ∉ done then some (toParent a) else none) n (some a) ≠ none := by
    intro n
    induction n with
    | zero => exact fun a _ => Option.some_ne_none a
    | succ n ih =>
      intro a ha
      rw [Descent.climb, Option.bind_some, if_pos ha]
      exact ih _ (hleftParent a ha)
  have hstep : ∀ a b, Descent.Next (fun a => if elem a ∧ a ∉ done then some (toParent a) else none) a b →
      InGraph elem parent a b := by
    intro a b hab
    obtain ⟨ha, hab⟩ := Option.ite_none_right_eq_some.mp hab
    cases hab
    exact hin a ha
  have hdomain : ∀ a b, (if elem a ∧ a ∉ done then some (toParent a) else none) = some b → a ∈ U := fun a b hab =>
    hU a (hstep a b hab).1
  obtain ⟨s, hs, y, hxy, hyy⟩ := Descent.cycles_of_climb hdomain (hgo _ x ⟨hx, hleft⟩)
  cases hs
  exact ⟨y, Relation.ReflTransGen.mono hstep _ _ hxy, Relation.TransGen.mono hstep _ _ hyy⟩

theorem IsGreedy.left_iff {U : List α} (hU : ∀ x, elem x → x ∈ U) (h : IsGreedy (Ready elem parent) key [] l) :
    elem x ∧ x ∉ l ↔ BehindCycle elem parent x := by
  constructor
  · rintro ⟨hx, hl⟩
    exact behind_of_left hU h.stopped hx hl
  · intro hb
    obtain ⟨p, ⟨hx, -, -⟩, -⟩ := hb.has_parent
    exact ⟨hx, fun hl => h.not_behind (by simp) x hl hb⟩

end

end Greedy
