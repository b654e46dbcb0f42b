import Mathlib.Data.List.Lex
import Mathlib.Data.List.Sort
import Mathlib.Order.Cover
import Congruent.KeyedMap

/-!
# Sorted maps

Finite maps kept in the order of their keys, with ranges, and what a range of strings in
lexicographic order is: the strings with a prefix, or those up to a string.
-/

/-- Where what comes before an element with the property has it too, a list is cut behind the
last of them. -/
theorem List.takeWhile_eq_filter {α : Type} {p : α → Bool} {l : List α}
    (h : l.Pairwise fun a b => p b = true → p a = true) : l.takeWhile p = l.filter p := by
  induction l with
  | nil => rfl
  | cons a l ih =>
    obtain ⟨hhead, htail⟩ := List.pairwise_cons.mp h
    rw [List.takeWhile_cons, List.filter_cons]
    split
    · rw [ih htail]
    · rename_i ha
      exact (List.filter_eq_nil_iff.mpr fun b hb hpb => ha (hhead b hb hpb)).symm

theorem List.Pairwise.alike {α : Type} {R S : α → α → Prop} {l : List α} (hR : l.Pairwise R) (hS : l.Pairwise S)
    (hasymm : ∀ a b, R a b → ¬R b a) {a b : α} (ha : a ∈ l) (hb : b ∈ l) (h : R a b) : S a b := by
  obtain ⟨i, hi, rfl⟩ := List.mem_iff_getElem.mp ha
  obtain ⟨j, hj, rfl⟩ := List.mem_iff_getElem.mp hb
  rw [List.pairwise_iff_getElem] at hR hS
  rcases Nat.lt_trichotomy i j with hij | rfl | hij
  · exact hS i j hi hj hij
  · exact absurd h (hasymm _ _ h)
  · exact absurd (hR j i hj hi hij) (hasymm _ _ h)

structure SortedMap (K V : Type) [LinearOrder K] where
  entries : List (K × V)
  sorted : entries.Pairwise fun a b => a.1 < b.1

namespace SortedMap

variable {K V : Type} [LinearOrder K]

instance : Membership (K × V) (SortedMap K V) := ⟨fun m e => e ∈ m.entries⟩

@[ext]
theorem ext {m n : SortedMap K V} (h : ∀ e, e ∈ m ↔ e ∈ n) : m = n := by
  have hnodup : ∀ m : SortedMap K V, m.entries.Nodup := by
    intro m
    refine m.sorted.imp fun hlt heq => ?_
    rw [heq] at hlt
    exact lt_irrefl _ hlt
  have hperm := (List.perm_ext_iff_of_nodup (hnodup m) (hnodup n)).mpr h
  have heq := hperm.eq_of_pairwise (fun a b _ _ hab hba => absurd hab hba.asymm) m.sorted n.sorted
  obtain ⟨l, hl⟩ := m
  obtain ⟨l', hl'⟩ := n
  cases heq
  rfl

theorem mem_unique {m : SortedMap K V} {k : K} {v w : V} (hv : (k, v) ∈ m) (hw : (k, w) ∈ m) : v = w := by
  obtain ⟨i, hi, hvi⟩ := List.mem_iff_getElem.mp hv
  obtain ⟨j, hj, hwj⟩ := List.mem_iff_getElem.mp hw
  have hlt := List.pairwise_iff_getElem.mp m.sorted
  rcases Nat.lt_trichotomy i j with hij | rfl | hij
  · have h := hlt i j hi hj hij
    rw [hvi, hwj] at h
    exact absurd h (lt_irrefl k)
  · rw [hvi] at hwj
    exact congrArg Prod.snd hwj
  · have h := hlt j i hj hi hij
    rw [hvi, hwj] at h
    exact absurd h (lt_irrefl k)

def empty : SortedMap K V := ⟨[], .nil⟩

@[simp] theorem not_mem_empty (e : K × V) : e ∉ (empty : SortedMap K V) := List.not_mem_nil

def get (m : SortedMap K V) (k : K) : Option V := m.entries.lookup k

theorem get_eq_some_iff {m : SortedMap K V} {k : K} {v : V} : m.get k = some v ↔ (k, v) ∈ m := by
  constructor
  · exact List.mem_of_lookup
  · intro h
    obtain ⟨w, hw⟩ := Option.ne_none_iff_exists'.mp (List.lookup_ne_none h)
    rw [get, hw, mem_unique h (List.mem_of_lookup hw)]

/-- The entries whose key a predicate holds of. -/
def retain (m : SortedMap K V) (p : K → Bool) : SortedMap K V :=
  ⟨m.entries.filter fun e => p e.1, m.sorted.sublist List.filter_sublist⟩

@[simp] theorem mem_retain {m : SortedMap K V} {p : K → Bool} {e : K × V} :
    e ∈ m.retain p ↔ e ∈ m ∧ p e.1 = true :=
  List.mem_filter

theorem retain_true (m : SortedMap K V) : (m.retain fun _ => true) = m := by
  ext e
  simp

def remove (m : SortedMap K V) (k : K) : SortedMap K V := m.retain fun x => x ≠ k

@[simp] theorem mem_remove {m : SortedMap K V} {k : K} {e : K × V} : e ∈ m.remove k ↔ e ∈ m ∧ e.1 ≠ k := by
  rw [remove, mem_retain, decide_eq_true_eq]

theorem mem_foldl_remove {ks : List K} {m : SortedMap K V} {e : K × V} :
    e ∈ ks.foldl remove m ↔ e ∈ m ∧ e.1 ∉ ks := by
  induction ks generalizing m with
  | nil => simp
  | cons k ks ih => rw [List.foldl_cons, ih, mem_remove, List.mem_cons, not_or, and_assoc]

def insert (m : SortedMap K V) (k : K) (v : V) : SortedMap K V where
  entries := (m.retain (· < k)).entries ++ (k, v) :: (m.retain (k < ·)).entries
  sorted := by
    have hbelow : ∀ e ∈ (m.retain (· < k)).entries, e.1 < k := fun e he => by simpa using (List.mem_filter.mp he).2
    have habove : ∀ e ∈ (m.retain (k < ·)).entries, k < e.1 := fun e he => by simpa using (List.mem_filter.mp he).2
    refine List.pairwise_append.mpr ⟨(m.retain _).sorted, List.pairwise_cons.mpr ⟨habove, (m.retain _).sorted⟩, ?_⟩
    intro a ha b hb
    rcases List.mem_cons.mp hb with rfl | hb
    · exact hbelow a ha
    · exact (hbelow a ha).trans (habove b hb)

@[simp] theorem mem_insert {m : SortedMap K V} {k : K} {v : V} {e : K × V} :
    e ∈ m.insert k v ↔ e = (k, v) ∨ e ∈ m ∧ e.1 ≠ k := by
  have hmem : e ∈ m.insert k v ↔ e ∈ m.retain (· < k) ∨ e = (k, v) ∨ e ∈ m.retain (k < ·) := by
    show e ∈ (m.retain (· < k)).entries ++ (k, v) :: (m.retain (k < ·)).entries ↔ _
    rw [List.mem_append, List.mem_cons]
    rfl
  rw [hmem, mem_retain, mem_retain, decide_eq_true_eq, decide_eq_true_eq, ne_iff_lt_or_gt]
  tauto

theorem get_insert_self (m : SortedMap K V) (k : K) (v : V) : (m.insert k v).get k = some v :=
  get_eq_some_iff.mpr (mem_insert.mpr (.inl rfl))

theorem get_insert_of_ne (m : SortedMap K V) {k k' : K} (v : V) (h : k' ≠ k) : (m.insert k v).get k' =
    m.get k' := by
  refine Option.ext fun w => ?_
  rw [get_eq_some_iff, get_eq_some_iff, mem_insert]
  constructor
  · rintro (heq | ⟨hmem, -⟩)
    · exact absurd (congrArg Prod.fst heq) h
    · exact hmem
  · exact fun hmem => .inr ⟨hmem, h⟩

theorem get_remove_self (m : SortedMap K V) (k : K) : (m.remove k).get k = none := by
  refine Option.eq_none_iff_forall_ne_some.mpr fun v hv => ?_
  exact (mem_remove.mp (get_eq_some_iff.mp hv)).2 rfl

theorem get_remove_of_ne (m : SortedMap K V) {k k' : K} (h : k' ≠ k) : (m.remove k).get k' = m.get k' := by
  refine Option.ext fun w => ?_
  rw [get_eq_some_iff, get_eq_some_iff, mem_remove]
  exact and_iff_left h

theorem get_foldl_remove (m : SortedMap K V) (ks : List K) (k : K) :
    (ks.foldl remove m).get k = if k ∈ ks then none else m.get k := by
  refine Option.ext fun v => ?_
  rw [get_eq_some_iff, mem_foldl_remove]
  by_cases hk : k ∈ ks
  · simp [hk]
  · simp [hk, get_eq_some_iff]

theorem get_isSome_iff {m : SortedMap K V} {k : K} : (m.get k).isSome = true ↔ k ∈ m.entries.map (·.1) := by
  rw [Option.isSome_iff_exists, List.mem_map]
  constructor
  · rintro ⟨v, hv⟩
    exact ⟨(k, v), get_eq_some_iff.mp hv, rfl⟩
  · rintro ⟨⟨k', v⟩, hmem, rfl⟩
    exact ⟨v, get_eq_some_iff.mpr hmem⟩

theorem mem_foldl_insert {l : List (K × V)} (hl : (l.map (·.1)).Nodup) {m : SortedMap K V} {e : K × V} :
    e ∈ l.foldl (fun m e => m.insert e.1 e.2) m ↔ e ∈ l ∨ e ∈ m ∧ e.1 ∉ l.map (·.1) := by
  induction l generalizing m with
  | nil => simp
  | cons a l ih =>
    obtain ⟨ha, hl⟩ := List.nodup_cons.mp hl
    rw [List.foldl_cons, ih hl, mem_insert, List.mem_cons, List.map_cons, List.mem_cons, not_or]
    constructor
    · rintro (he | ⟨rfl | ⟨he, hne⟩, hnot⟩)
      · exact Or.inl (Or.inr he)
      · exact Or.inl (Or.inl rfl)
      · exact Or.inr ⟨he, hne, hnot⟩
    · rintro ((rfl | he) | ⟨he, hne, hnot⟩)
      · exact Or.inr ⟨Or.inl rfl, ha⟩
      · exact Or.inl he
      · exact Or.inr ⟨Or.inr ⟨he, hne⟩, hnot⟩

theorem nodup_keys (m : SortedMap K V) : (m.entries.map (·.1)).Nodup :=
  List.pairwise_map.mpr (m.sorted.imp fun hlt => hlt.ne)

/-- Keys from `lower` on, before `upper` when there is one. -/
def inRange (lower : K) (upper : Option K) (k : K) : Bool := lower ≤ k && upper.all (k < ·)

theorem inRange_iff {lower k : K} {upper : Option K} :
    inRange lower upper k = true ↔ lower ≤ k ∧ ∀ e ∈ upper, k < e := by
  simp [inRange, Option.all_eq_true]

def range (m : SortedMap K V) (lower : K) (upper : Option K) : SortedMap K V := m.retain (inRange lower upper)

theorem mem_range {m : SortedMap K V} {lower : K} {upper : Option K} {e : K × V} :
    e ∈ m.range lower upper ↔ e ∈ m ∧ lower ≤ e.1 ∧ ∀ k ∈ upper, e.1 < k := by
  rw [range, mem_retain, inRange_iff]

/-! ## Scans -/

def scanFrom (m : SortedMap K V) (k : K) : List (K × V) := m.entries.filter fun e => k ≤ e.1

/-- The entries up to a key, the last first. -/
def revScanFrom (m : SortedMap K V) (k : K) : List (K × V) := (m.entries.filter fun e => e.1 ≤ k).reverse

section
variable {m : SortedMap K V} {k : K} {e : K × V}

theorem mem_scanFrom : e ∈ m.scanFrom k ↔ e ∈ m ∧ k ≤ e.1 := by
  rw [scanFrom, List.mem_filter, decide_eq_true_eq]
  rfl

theorem mem_revScanFrom : e ∈ m.revScanFrom k ↔ e ∈ m ∧ e.1 ≤ k := by
  rw [revScanFrom, List.mem_reverse, List.mem_filter, decide_eq_true_eq]
  rfl

theorem pairwise_scanFrom (m : SortedMap K V) (k : K) : (m.scanFrom k).Pairwise fun a b => a.1 < b.1 :=
  m.sorted.sublist List.filter_sublist

theorem pairwise_revScanFrom (m : SortedMap K V) (k : K) : (m.revScanFrom k).Pairwise fun a b => b.1 < a.1 :=
  List.pairwise_reverse.mpr (m.sorted.sublist List.filter_sublist)

/-- A scan that stops where its keys leave a predicate has lost none of them, if they stand
together from where it starts. -/
theorem takeWhile_scanFrom {p : K → Bool} (hp : ∀ a b, k ≤ a → a < b → p b = true → p a = true) :
    ((m.scanFrom k).takeWhile fun e => p e.1) = (m.scanFrom k).filter fun e => p e.1 := by
  refine List.takeWhile_eq_filter ((m.pairwise_scanFrom k).imp_of_mem ?_)
  exact fun {a b} ha _ hlt => hp a.1 b.1 (mem_scanFrom.mp ha).2 hlt

theorem takeWhile_revScanFrom {p : K → Bool} (hp : ∀ a b, a ≤ k → b < a → p b = true → p a = true) :
    ((m.revScanFrom k).takeWhile fun e => p e.1) = (m.revScanFrom k).filter fun e => p e.1 := by
  refine List.takeWhile_eq_filter ((m.pairwise_revScanFrom k).imp_of_mem ?_)
  exact fun {a b} ha _ hlt => hp a.1 b.1 (mem_revScanFrom.mp ha).2 hlt

end

/-! ## Keys in groups -/

structure Grouped {G R : Type} [LinearOrder G] [LinearOrder R] (group : K → G) (rank : K → R) : Prop where
  le_iff : ∀ a b, a ≤ b ↔ group a < group b ∨ group a = group b ∧ rank a ≤ rank b

namespace Grouped

variable {G R : Type} [LinearOrder G] [LinearOrder R] {group : K → G} {rank : K → R} (h : Grouped group rank)
include h

theorem rank_le_iff {a b : K} (hgroup : group a = group b) : a ≤ b ↔ rank a ≤ rank b := by
  rw [h.le_iff, hgroup]
  constructor
  · rintro (hlt | ⟨-, hle⟩)
    · exact absurd hlt (lt_irrefl _)
    · exact hle
  · exact fun hle => Or.inr ⟨rfl, hle⟩

theorem rank_lt_iff {a b : K} (hgroup : group a = group b) : a < b ↔ rank a < rank b := by
  rw [← not_le, ← not_le, h.rank_le_iff hgroup.symm]

theorem between {k a b : K} (hka : k ≤ a) (hab : a ≤ b) (hgroup : group k = group b) : group a = group b := by
  rcases (h.le_iff k a).mp hka with hlt | ⟨heq, -⟩
  · rcases (h.le_iff a b).mp hab with hlt' | ⟨heq, -⟩
    · rw [hgroup] at hlt
      exact absurd hlt hlt'.asymm
    · exact heq
  · exact heq.symm.trans hgroup

variable {m : SortedMap K V} {k : K} {p : K → Bool} (hp : ∀ a, p a = true ↔ group a = group k) {e : K × V}
include hp

theorem mem_takeWhile_scanFrom :
    e ∈ (m.scanFrom k).takeWhile (fun e => p e.1) ↔ e ∈ m ∧ group e.1 = group k ∧ rank k ≤ rank e.1 := by
  rw [takeWhile_scanFrom, List.mem_filter, mem_scanFrom, hp, and_assoc]
  · refine and_congr_right fun _ => ?_
    rw [and_comm]
    exact and_congr_right fun hgroup => h.rank_le_iff hgroup.symm
  · intro a b hka hab hb
    rw [hp] at hb ⊢
    exact (h.between hka hab.le hb.symm).trans hb

theorem mem_takeWhile_revScanFrom :
    e ∈ (m.revScanFrom k).takeWhile (fun e => p e.1) ↔ e ∈ m ∧ group e.1 = group k ∧ rank e.1 ≤ rank k := by
  rw [takeWhile_revScanFrom, List.mem_filter, mem_revScanFrom, hp, and_assoc]
  · refine and_congr_right fun _ => ?_
    rw [and_comm]
    exact and_congr_right fun hgroup => h.rank_le_iff hgroup
  · intro a b hak hba hb
    rw [hp] at hb ⊢
    exact h.between hba.le hak hb

end Grouped

end SortedMap

/-! ## Strings in lexicographic order -/

namespace List

variable {α : Type} [LinearOrder α] {p k a b : List α} {x y : α}

theorem append_lt_append_left_iff : p ++ a < p ++ b ↔ a < b := by
  induction p with
  | nil => rfl
  | cons x p ih => simp [ih]

theorem append_le_append_left_iff : p ++ a ≤ p ++ b ↔ a ≤ b := by
  rw [← not_lt, append_lt_append_left_iff, not_lt]

theorem nil_le_lex (a : List α) : [] ≤ a := not_lt.mp (not_lt_nil a)

theorem self_le_append (p a : List α) : p ≤ p ++ a := by
  have h : p ++ [] ≤ p ++ a := append_le_append_left_iff.mpr (nil_le_lex a)
  rwa [append_nil] at h

theorem cons_le_cons_iff_lex : x :: a ≤ y :: b ↔ x < y ∨ x = y ∧ a ≤ b := by
  rw [← not_lt, cons_lt_cons_iff, ← not_lt]
  rcases lt_trichotomy x y with h | rfl | h
  · simp [h, h.not_gt, h.ne']
  · simp
  · simp [h, h.not_gt, h.ne']

theorem snoc_le_and_lt_snoc_iff (h : x ⋖ y) : p ++ [x] ≤ k ∧ k < p ++ [y] ↔ p ++ [x] <+: k := by
  induction p generalizing k with
  | nil =>
    cases k with
    | nil => simp
    | cons z r =>
      rw [nil_append, nil_append, cons_le_cons_iff_lex, cons_lt_cons_iff, cons_prefix_cons]
      simp only [nil_le_lex r, and_true, nil_prefix, not_lt_nil, and_false, or_false]
      constructor
      · rintro ⟨hxz | hxz, hzy⟩
        · exact absurd hzy (h.2 hxz)
        · exact hxz
      · rintro rfl
        exact ⟨.inr rfl, h.lt⟩
  | cons c p ih =>
    cases k with
    | nil => simp
    | cons z r =>
      rw [cons_append, cons_append, cons_le_cons_iff_lex, cons_lt_cons_iff, cons_prefix_cons, ← ih]
      constructor
      · rintro ⟨hcz | ⟨hcz, hle⟩, hzc | ⟨hzc, hlt⟩⟩
        · exact absurd hzc hcz.not_gt
        · exact absurd hzc hcz.ne'
        · exact absurd hcz hzc.ne'
        · exact ⟨hcz, hle, hlt⟩
      · rintro ⟨rfl, hle, hlt⟩
        exact ⟨.inr ⟨rfl, hle⟩, .inr ⟨rfl, hlt⟩⟩

theorem snoc_top_prefix_iff (h : IsTop x) : p ++ [x] ≤ k ∧ p <+: k ↔ p ++ [x] <+: k := by
  induction p generalizing k with
  | nil =>
    cases k with
    | nil => simp
    | cons z r =>
      have hxz : x ≤ z ↔ x = z := ⟨fun hle => hle.antisymm (h z), le_of_eq⟩
      simp [cons_le_cons_iff_lex, nil_le_lex r, ← le_iff_lt_or_eq, hxz]
  | cons c p ih =>
    cases k with
    | nil => simp
    | cons z r =>
      rw [cons_append, cons_le_cons_iff_lex, cons_prefix_cons, cons_prefix_cons, ← ih]
      constructor
      · rintro ⟨hcz | ⟨-, hle⟩, rfl, hpre⟩
        · exact absurd hcz (lt_irrefl _)
        · exact ⟨rfl, hle, hpre⟩
      · rintro ⟨rfl, hle, hpre⟩
        exact ⟨.inr ⟨rfl, hle⟩, rfl, hpre⟩

theorem lt_snoc_bot_iff (h : IsBot x) : k < p ++ [x] ↔ k ≤ p := by
  induction p generalizing k with
  | nil =>
    cases k with
    | nil => simp
    | cons z r =>
      have hz : ¬ z < x := (h z).not_gt
      simp [cons_lt_cons_iff, hz, ← not_lt]
  | cons c p ih =>
    cases k with
    | nil => simp [← not_lt]
    | cons z r => rw [cons_append, cons_lt_cons_iff, cons_le_cons_iff_lex, ih]

end List
