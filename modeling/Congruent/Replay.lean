import Mathlib.Data.List.Induction
import Mathlib.Data.List.Nodup
import Mathlib.Logic.Function.Basic
import Mathlib.Logic.Relation

/-!
# Replaying a graph

Nodes are worked off one after the other. Each gets a value from the values of those it
depends on; some also take part of it from a current value, which they then replace. Two
orders in which every node comes after its dependencies give each node the same value,
when any two nodes of the second kind are related.
-/

namespace Replay

section
variable {N K : Type} (key : N → K) (deps : N → List K)

/-- Every node comes after those it depends on. -/
structure Sorted (ns : List N) : Prop where
  irrefl : ∀ n ∈ ns, key n ∉ deps n
  later : ns.Pairwise fun a b => key b ∉ deps a

/-- One node is in the past of another. -/
def Past (ns : List N) : K → K → Prop := Relation.TransGen fun x y => ∃ n ∈ ns, key n = y ∧ x ∈ deps n

variable {key deps} {ns ns' l r : List N} {n : N} {x y : K}

theorem Past.perm (h : Past key deps ns x y) (hp : ns.Perm ns') : Past key deps ns' x y := by
  induction h with
  | single h =>
    obtain ⟨n, hn, hy, hx⟩ := h
    exact .single ⟨n, hp.subset hn, hy, hx⟩
  | tail _ h ih =>
    obtain ⟨n, hn, hy, hx⟩ := h
    exact .tail ih ⟨n, hp.subset hn, hy, hx⟩

theorem Past.mem (h : Past key deps ns x y) : y ∈ ns.map key := by
  cases h with
  | single h =>
    obtain ⟨n, hn, rfl, _⟩ := h
    exact List.mem_map_of_mem hn
  | tail _ h =>
    obtain ⟨n, hn, rfl, _⟩ := h
    exact List.mem_map_of_mem hn

theorem node_unique (hk : (ns.map key).Nodup) {a b : N} (ha : a ∈ ns) (hb : b ∈ ns) (h : key a = key b) : a = b :=
  List.inj_on_of_nodup_map hk ha hb h

theorem Sorted.before (hs : Sorted key deps (l ++ n :: r)) (hx : x ∈ deps n) (hm : x ∈ (l ++ n :: r).map key) :
    x ∈ l.map key := by
  rw [List.map_append, List.map_cons, List.mem_append, List.mem_cons] at hm
  rcases hm with hm | rfl | hm
  · exact hm
  · exact absurd hx (hs.irrefl n (by simp))
  · obtain ⟨b, hb, rfl⟩ := List.mem_map.mp hm
    have hrest := (List.pairwise_append.mp hs.later).2.1
    exact absurd hx ((List.pairwise_cons.mp hrest).1 b hb)

theorem Past.before (h : Past key deps ns x y) (hs : Sorted key deps ns) (hk : (ns.map key).Nodup)
    (hx : x ∈ ns.map key) : ∀ (l : List N) (n : N) (r : List N), ns = l ++ n :: r → key n = y → x ∈ l.map key := by
  induction h with
  | single h =>
    intro l n r hl hy
    obtain ⟨m, hm, hmy, hdep⟩ := h
    have hmn : m = n := node_unique hk hm (by simp [hl]) (hmy.trans hy.symm)
    subst hmn hl
    exact hs.before hdep hx
  | tail hpast h ih =>
    intro l n r hl hy
    obtain ⟨m, hm, hmy, hdep⟩ := h
    have hmn : m = n := node_unique hk hm (by simp [hl]) (hmy.trans hy.symm)
    subst hmn
    have hz := Past.mem hpast
    rw [hl] at hz hs
    obtain ⟨b, hb, hbz⟩ := List.mem_map.mp (hs.before hdep hz)
    obtain ⟨l₁, l₂, rfl⟩ := List.append_of_mem hb
    have hx₁ := ih l₁ b (l₂ ++ m :: r) (by simp [hl]) hbz
    rw [List.map_append]
    exact List.mem_append_left _ hx₁

theorem Past.irrefl (h : Past key deps ns x y) (hs : Sorted key deps ns) (hk : (ns.map key).Nodup) : x ≠ y := by
  rintro rfl
  obtain ⟨n, hn, rfl⟩ := List.mem_map.mp h.mem
  obtain ⟨l, r, rfl⟩ := List.append_of_mem hn
  have hl := h.before hs hk h.mem l n r rfl rfl
  rw [List.map_append, List.nodup_append] at hk
  exact hk.2.2 _ hl _ (by simp) rfl

end

section
variable {N K V : Type} (key : N → K) (deps : N → List K) (moves : N → Bool)
  (rule : N → (K → V) → V → V → Prop)

/-- A run from some values and a current one, each new value being one the rule allows. -/
inductive Run [DecidableEq K] : List N → (K → V) × V → (K → V) × V → Prop
  | nil (s : (K → V) × V) : Run [] s s
  | snoc {ns : List N} {s t : (K → V) × V} (h : Run ns s t) (n : N) (v : V) (hv : rule n t.1 t.2 v) :
    Run (ns ++ [n]) s (Function.update t.1 (key n) v, if moves n then v else t.2)

/-- Any two nodes that move the current value are related. -/
def Chained (ns : List N) : Prop :=
  ∀ a ∈ ns, ∀ b ∈ ns, moves a = true → moves b = true → a ≠ b →
    Past key deps ns (key a) (key b) ∨ Past key deps ns (key b) (key a)

/-- The value the current one was last replaced by. -/
def lastMove (ns : List N) (s t : (K → V) × V) : V :=
  match (ns.filter moves).getLast? with
  | some n => t.1 (key n)
  | none => s.2

variable {key deps moves rule} {ns ns' l r : List N} {n : N} {s t t' : (K → V) × V}

section
variable [DecidableEq K]

theorem Run.frame (h : Run key moves rule ns s t) {x : K} (hx : x ∉ ns.map key) : t.1 x = s.1 x := by
  induction h with
  | nil s => rfl
  | snoc h n v hv ih =>
    rw [List.map_append, List.mem_append, not_or] at hx
    have hne : x ≠ key n := by simpa using hx.2
    rw [← ih hx.1]
    exact Function.update_of_ne hne _ _

theorem lastMove_update {k : K} (v c : V) (hk : ∀ a ∈ l, key a ≠ k) :
    lastMove key moves l s (Function.update t.1 k v, c) = lastMove key moves l s t := by
  unfold lastMove
  cases hlast : (l.filter moves).getLast? with
  | none => rfl
  | some a =>
    have ha : a ∈ l := (List.mem_filter.mp (List.mem_of_getLast? hlast)).1
    exact Function.update_of_ne (hk a ha) _ _

theorem Run.current (h : Run key moves rule ns s t) (hk : (ns.map key).Nodup) : t.2 = lastMove
    key moves ns s t := by
  induction h with
  | nil s => rfl
  | @snoc ns s t h n v hv ih =>
    rw [List.map_append, List.nodup_append] at hk
    by_cases hm : moves n = true
    · simp [lastMove, List.filter_append, hm]
    · have hne : ∀ a ∈ ns, key a ≠ key n := fun a ha => hk.2.2 _ (List.mem_map_of_mem ha) _ (by simp)
      have hlast : lastMove key moves (ns ++ [n]) s = lastMove (V := V) key moves ns s := by
        funext u
        simp [lastMove, List.filter_append, hm]
      rw [hlast, lastMove_update _ _ hne, ← ih hk.1]
      simp [hm]

/-- The moment a node gets its value. -/
theorem Run.moment (h : Run key moves rule ns s t) (hk : (ns.map key).Nodup) :
    ∀ (l : List N) (n : N) (r : List N), ns = l ++ n :: r → ∃ u : (K → V) × V, rule n u.1 u.2 (t.1 (key n)) ∧
      (∀ x ∈ l.map key, u.1 x = t.1 x) ∧ (∀ x ∉ ns.map key, u.1 x = s.1 x) ∧ u.2 = lastMove key moves l s t := by
  induction h with
  | nil s =>
    intro l n r hl
    simp at hl
  | @snoc ns s t h m v hv ih =>
    intro l n r hl
    have hk' := hk
    rw [List.map_append, List.nodup_append] at hk'
    have hne : ∀ x ∈ ns.map key, x ≠ key m := fun x hx => hk'.2.2 x hx _ (by simp)
    have hout : ∀ x, x ∉ (ns ++ [m]).map key → x ∉ ns.map key := by
      intro x hx hmem
      apply hx
      rw [List.map_append]
      exact List.mem_append_left _ hmem
    rcases List.eq_nil_or_concat r with rfl | ⟨r', b, rfl⟩
    · obtain ⟨rfl, hn⟩ := List.append_inj' hl rfl
      cases hn
      refine ⟨t, ?_, fun x hx => ?_, fun x hx => h.frame (hout x hx), ?_⟩
      · show rule m t.1 t.2 (Function.update t.1 (key m) v (key m))
        rw [Function.update_self]
        exact hv
      · exact (Function.update_of_ne (hne x hx) _ _).symm
      · rw [lastMove_update _ _ fun a ha => hne _ (List.mem_map_of_mem ha)]
        exact h.current hk'.1
    · rw [List.concat_eq_append, ← List.cons_append, ← List.append_assoc] at hl
      obtain ⟨rfl, -⟩ := List.append_inj' hl rfl
      obtain ⟨u, hu, hbefore, hframe, hcur⟩ := ih hk'.1 l n r' rfl
      have hl' : ∀ a ∈ l, key a ≠ key m := fun a ha => hne _ (List.mem_map_of_mem (by simp [ha]))
      refine ⟨u, ?_, fun x hx => ?_, fun x hx => hframe x (hout x hx), ?_⟩
      · show rule n u.1 u.2 (Function.update t.1 (key m) v (key n))
        rw [Function.update_of_ne (hne _ (by simp))]
        exact hu
      · obtain ⟨a, ha, rfl⟩ := List.mem_map.mp hx
        rw [hbefore _ hx]
        exact (Function.update_of_ne (hl' a ha) _ _).symm
      · rw [lastMove_update _ _ hl', hcur]

end

/-! ## Two orders -/

section
variable (hk : (ns.map key).Nodup) (hs : Sorted key deps ns) (hc : Chained key deps moves ns)
include hk hs hc

theorem mem_movesBefore (hl : ns = l ++ n :: r) (hn : moves n = true) (m : N) :
    m ∈ l.filter moves ↔ m ∈ ns ∧ moves m = true ∧ Past key deps ns (key m) (key n) := by
  have hnl : key n ∉ l.map key := by
    rw [hl, List.map_append, List.nodup_append] at hk
    exact fun hmem => hk.2.2 _ hmem _ (by simp) rfl
  rw [List.mem_filter]
  constructor
  · rintro ⟨hm, hmoves⟩
    have hmns : m ∈ ns := by simp [hl, hm]
    have hne : m ≠ n := by
      rintro rfl
      exact hnl (List.mem_map_of_mem hm)
    refine ⟨hmns, hmoves, (hc m hmns n (by simp [hl]) hmoves hn hne).resolve_right fun hpast => ?_⟩
    obtain ⟨l₁, l₂, rfl⟩ := List.append_of_mem hm
    have hbefore := hpast.before hs hk (by simp [hl]) l₁ m (l₂ ++ n :: r) (by simp [hl]) rfl
    apply hnl
    rw [List.map_append]
    exact List.mem_append_left _ hbefore
  · rintro ⟨hm, hmoves, hpast⟩
    refine ⟨?_, hmoves⟩
    obtain ⟨a, ha, hkey⟩ := List.mem_map.mp (hpast.before hs hk (List.mem_map_of_mem hm) l n r hl rfl)
    have ham : a = m := node_unique hk (by simp [hl, ha]) hm hkey
    rwa [← ham]

theorem movesBefore_sorted (hl : ns = l ++ r) :
    (l.filter moves).Pairwise fun a b => Past key deps ns (key a) (key b) := by
  induction l using List.reverseRecOn generalizing r with
  | nil => exact List.Pairwise.nil
  | append_singleton l n ih =>
    have hl' : ns = l ++ n :: r := by simpa using hl
    rw [List.filter_append]
    by_cases hn : moves n = true
    · refine List.pairwise_append.mpr ⟨ih hl', List.pairwise_filter.mpr (by simp), fun a ha b hb => ?_⟩
      have hbn : b = n := by
        rw [List.mem_filter] at hb
        simpa using hb.1
      rw [hbn]
      exact ((mem_movesBefore hk hs hc hl' hn a).mp ha).2.2
    · simpa [hn] using ih hl'

end

theorem movesBefore_eq (hp : ns.Perm ns') (hk : (ns.map key).Nodup) (hs : Sorted key deps ns)
    (hs' : Sorted key deps ns')
    (hc : Chained key deps moves ns) (hn : moves n = true) {l' r' : List N} (hl : ns = l ++ n :: r)
    (hl' : ns' = l' ++ n :: r') : l.filter moves = l'.filter moves := by
  have hk' : (ns'.map key).Nodup := (hp.map key).nodup_iff.mp hk
  have hc' : Chained key deps moves ns' := fun a ha b hb hma hmb hne =>
    (hc a (hp.mem_iff.mpr ha) b (hp.mem_iff.mpr hb) hma hmb hne).imp (·.perm hp) (·.perm hp)
  have hnodup : (l.filter moves).Nodup := by
    have := hk.of_map
    rw [hl, List.nodup_append] at this
    exact this.1.filter _
  have hnodup' : (l'.filter moves).Nodup := by
    have := hk'.of_map
    rw [hl', List.nodup_append] at this
    exact this.1.filter _
  have hperm : (l.filter moves).Perm (l'.filter moves) := by
    refine (List.perm_ext_iff_of_nodup hnodup hnodup').mpr fun m => ?_
    rw [mem_movesBefore hk hs hc hl hn, mem_movesBefore hk' hs' hc' hl' hn, hp.mem_iff]
    exact and_congr_right fun _ => and_congr_right fun _ => ⟨fun h => h.perm hp, fun h => h.perm hp.symm⟩
  refine List.Perm.eq_of_pairwise (fun a b _ _ hab hba => ?_) (movesBefore_sorted hk hs hc hl)
    ((movesBefore_sorted hk' hs' hc' hl').imp fun h => h.perm hp.symm) hperm
  exact absurd rfl (Past.irrefl (hab.trans hba) hs hk)

/-- Two orders give every node the same value. -/
theorem run_agree [DecidableEq K] {E : V → V → Prop} (hrefl : ∀ v, E v v)
    (hrule : ∀ n ∈ ns, ∀ f f' c c' v v', rule n f c v → rule n f' c' v' → (∀ x ∈ deps n, E (f x) (f' x)) →
      (moves n = true → E c c') → E v v')
    (hp : ns.Perm ns') (hk : (ns.map key).Nodup) (hs : Sorted key deps ns) (hs' : Sorted key deps ns')
    (hc : Chained key deps moves ns) (h : Run key moves rule ns s t) (h' : Run key moves rule ns' s t') :
    ∀ n ∈ ns, E (t.1 (key n)) (t'.1 (key n)) := by
  have hk' : (ns'.map key).Nodup := (hp.map key).nodup_iff.mp hk
  -- along the first order: when a node's turn comes, those before it agree
  suffices hall : ∀ (l r : List N), ns = l ++ r → ∀ n ∈ l, E (t.1 (key n)) (t'.1 (key n)) from
    hall ns [] (by simp)
  intro l
  induction l using List.reverseRecOn with
  | nil => simp
  | append_singleton l m ih =>
    intro r hl n hn
    have hlm : ns = l ++ m :: r := by simpa using hl
    have hl₀ := ih (m :: r) hlm
    rw [List.mem_append, List.mem_singleton] at hn
    rcases hn with hn | rfl
    · exact hl₀ n hn
    · obtain ⟨l', r', hl'⟩ := List.append_of_mem (hp.subset (show n ∈ ns by simp [hlm]))
      obtain ⟨u, hu, hbefore, hout, hcur⟩ := h.moment hk l n r hlm
      obtain ⟨u', hu', hbefore', hout', hcur'⟩ := h'.moment hk' l' n r' hl'
      refine hrule n (by simp [hlm]) _ _ _ _ _ _ hu hu' (fun x hx => ?_) fun hmoves => ?_
      · by_cases hmem : x ∈ ns.map key
        · have hxl : x ∈ l.map key := by
            rw [hlm] at hs hmem
            exact hs.before hx hmem
          have hxl' : x ∈ l'.map key := by
            have hmem' := (hp.map key).mem_iff.mp hmem
            rw [hl'] at hs' hmem'
            exact hs'.before hx hmem'
          rw [hbefore x hxl, hbefore' x hxl']
          obtain ⟨a, ha, rfl⟩ := List.mem_map.mp hxl
          exact hl₀ a ha
        · rw [hout x hmem, hout' x fun hmem' => hmem ((hp.map key).mem_iff.mpr hmem')]
          exact hrefl _
      · rw [hcur, hcur']
        unfold lastMove
        rw [← movesBefore_eq hp hk hs hs' hc hmoves hlm hl']
        cases hlast : (l.filter moves).getLast? with
        | none => exact hrefl _
        | some a => exact hl₀ a (List.mem_filter.mp (List.mem_of_getLast? hlast)).1

end

end Replay
