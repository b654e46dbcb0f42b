import Congruent.StreamScans

/-!
# Pages of relations (`pdu_metadata/data.rs`)

The relations of an event are rows of two unsigned numbers, the event and the relating one.
Both are counts cast to unsigned words, so that backfilled counts lie above all live ones.
-/

namespace Congruent.RelationPages

open Words
open Store (Bytes)
open StreamScans TopoKeys

/-! ## Rows -/

/-- `tofrom_relation`. -/
abbrev RelationTable := SortedMap Bytes16 Bytes

def relationKey (to' from' : UInt64) : Bytes16 :=
  ⟨beBytes to' ++ beBytes from', by rw [List.length_append, length_beBytes, length_beBytes]⟩

def addRelation (table : RelationTable) (from' to' : UInt64) : RelationTable :=
  table.insert (relationKey to' from') []

def relationTo (key : Bytes16) : UInt64 := fromBeBytes (key.1.take 8)

def relationFrom (key : Bytes16) : UInt64 := fromBeBytes ((key.1.drop 8).take 8)

def Stored (table : RelationTable) (to' from' : UInt64) : Prop := ∃ v, (relationKey to' from', v) ∈ table

/-! ## Pages -/

/-- The unsigned number that a page is sought from. -/
def fromUnsigned (from' : Count) (dir : Direction) : UInt64 :=
  match dir, from' with
  | .forward, .backfilled _ => 0
  | _, _ => from'.intoUnsigned

def passes (from' : Count) (dir : Direction) (count : Count) : Bool :=
  if from' = .min ∨ from' = .max then true
  else
    match dir with
    | .forward => decide (fromUnsigned from' dir < count.intoUnsigned)
    | .backward => decide (count.intoUnsigned < fromUnsigned from' dir)

/-- The rows of the event from that number on. -/
def scan (table : RelationTable) (target : UInt64) (from' : Count) (dir : Direction) : List (Bytes16 × Bytes) :=
  let current := relationKey target (fromUnsigned from' dir)
  let rows := match dir with
    | .forward => table.scanFrom current
    | .backward => table.revScanFrom current
  rows.takeWhile fun row => (beBytes target).isPrefixOf row.1.1

/-- The relations that `get_relations` looks up: their counts, in order. -/
def considered (table : RelationTable) (target : UInt64) (from' : Count) (dir : Direction) : List Count :=
  ((scan table target from' dir).map fun row => Count.fromUnsigned (relationFrom row.1)).filter (passes from' dir)

def Ahead : Direction → Int → Int → Prop
  | .forward, start, n => start < n
  | .backward, start, n => n < start

/-- The relations of the event ahead of the start, in order. -/
structure ExactPage (table : RelationTable) (target : UInt64) (from' : Count) (dir : Direction)
    (page : List Count) : Prop where
  mem_iff : ∀ c, c ∈ page ↔
    (∃ f, Stored table target f ∧ c = Count.fromUnsigned f) ∧ Ahead dir from'.value c.value
  ordered : page.Pairwise fun a b => Ahead dir a.value b.value

/-- The relations of the event are between two unsigned words, the second excluded. -/
def Between (table : RelationTable) (target : UInt64) (low high : Int) : Prop :=
  ∀ f, Stored table target f → low ≤ f.toNat ∧ f.toNat < high

/-- Where a page from the start is exact: from a live start, among live relations; from a
backfilled one, upwards among relations that are all live, or all backfilled and after the
start, and downwards among backfilled ones. -/
def Fits (table : RelationTable) (target : UInt64) (from' : Count) (dir : Direction) : Prop :=
  if from' = .max then Between table target 0 (2 ^ 63 - 1)
  else if 0 ≤ from'.value then Between table target 0 (2 ^ 63)
  else
    match dir with
    | .forward => Between table target (if from' = .min then 0 else 1) (2 ^ 63) ∨
        Between table target (from'.value + 2 ^ 64 + 1) (2 ^ 64)
    | .backward => Between table target (if from' = .min then 2 ^ 63 + 1 else 2 ^ 63) (2 ^ 64)

/-! ## The order of the rows -/

theorem relationKey_eq (key : Bytes16) : relationKey (relationTo key) (relationFrom key) = key := by
  have htake : (key.1.take 8).length = 8 := by
    rw [List.length_take, key.2]
    rfl
  have hdrop : (key.1.drop 8).length = 8 := by rw [List.length_drop, key.2]
  apply Subtype.ext
  show beBytes (fromBeBytes (key.1.take 8)) ++ beBytes (fromBeBytes ((key.1.drop 8).take 8)) = key.1
  rw [List.take_of_length_le (Nat.le_of_eq hdrop), beBytes_fromBeBytes htake, beBytes_fromBeBytes hdrop,
    List.take_append_drop]

theorem relationTo_key (to' from' : UInt64) : relationTo (relationKey to' from') = to' := by
  show fromBeBytes ((beBytes to' ++ beBytes from').take 8) = to'
  rw [take_beBytes, fromBeBytes_beBytes]

theorem relationFrom_key (to' from' : UInt64) : relationFrom (relationKey to' from') = from' := by
  show fromBeBytes (((beBytes to' ++ beBytes from').drop 8).take 8) = from'
  rw [drop_beBytes, fromBeBytes_beBytes]

theorem relation_le_iff (k k' : Bytes16) : k ≤ k' ↔ (relationTo k).toNat < (relationTo k').toNat ∨
    relationTo k = relationTo k' ∧ (relationFrom k).toNat ≤ (relationFrom k').toNat := by
  have hcmp : compare k.1 k'.1 = (compare (relationTo k) (relationTo k')).then
      (compare (relationFrom k) (relationFrom k')) := by
    have hk := congrArg Subtype.val (relationKey_eq k)
    have hk' := congrArg Subtype.val (relationKey_eq k')
    rw [← hk, ← hk']
    show compare (beBytes _ ++ beBytes _) (beBytes _ ++ beBytes _) = _
    rw [compare_append (by rw [length_beBytes, length_beBytes]), compare_beBytes, compare_beBytes]
  show k.1 ≤ k'.1 ↔ _
  rw [← compare_bytes_ne_gt_iff, hcmp, compare_uint64, compare_uint64, then_ne_gt_iff, UInt64.toNat_inj,
    compare_le_iff_le]

theorem startsWith_target_iff (target : UInt64) (key : Bytes16) :
    (beBytes target).isPrefixOf key.1 = true ↔ relationTo key = target := by
  have htake : (key.1.take 8).length = 8 := by
    rw [List.length_take, key.2]
    rfl
  rw [List.isPrefixOf_iff_prefix, List.prefix_iff_eq_take, length_beBytes]
  constructor
  · intro h
    rw [relationTo, ← h, fromBeBytes_beBytes]
  · rintro rfl
    exact beBytes_fromBeBytes htake

theorem stored_addRelation (table : RelationTable) (from' to' f t : UInt64) :
    Stored (addRelation table from' to') t f ↔ (t = to' ∧ f = from') ∨ Stored table t f := by
  unfold Stored addRelation
  simp only [SortedMap.mem_insert, Prod.mk.injEq]
  constructor
  · rintro ⟨v, ⟨hkey, -⟩ | ⟨hmem, -⟩⟩
    · have htarget := congrArg relationTo hkey
      have hfrom := congrArg relationFrom hkey
      rw [relationTo_key, relationTo_key] at htarget
      rw [relationFrom_key, relationFrom_key] at hfrom
      exact Or.inl ⟨htarget, hfrom⟩
    · exact Or.inr ⟨v, hmem⟩
  · rintro (⟨rfl, rfl⟩ | ⟨v, hmem⟩)
    · exact ⟨[], Or.inl ⟨rfl, rfl⟩⟩
    · by_cases hkey : relationKey t f = relationKey to' from'
      · exact ⟨[], Or.inl ⟨hkey, rfl⟩⟩
      · exact ⟨v, Or.inr ⟨hmem, hkey⟩⟩

/-! ## The rows of a page -/

theorem relation_grouped :
    SortedMap.Grouped (fun key => (relationTo key).toNat) fun key => (relationFrom key).toNat :=
  ⟨fun k k' => by rw [relation_le_iff, UInt64.toNat_inj]⟩

section
variable (table : RelationTable) (target : UInt64) (from' : Count) (dir : Direction)

theorem mem_scan (row : Bytes16 × Bytes) : row ∈ scan table target from' dir ↔
    row ∈ table ∧ relationTo row.1 = target ∧
      (relationFrom row.1 = fromUnsigned from' dir ∨
        Ahead dir (fromUnsigned from' dir).toNat (relationFrom row.1).toNat) := by
  have hstart : ∀ key : Bytes16, (beBytes target).isPrefixOf key.1 = true ↔
      (relationTo key).toNat = (relationTo (relationKey target (fromUnsigned from' dir))).toNat := fun key => by
    rw [startsWith_target_iff, relationTo_key, UInt64.toNat_inj]
  rw [← UInt64.toNat_inj (a := relationFrom row.1)]
  cases dir with
  | forward =>
    show row ∈ (table.scanFrom _).takeWhile _ ↔ _
    rw [relation_grouped.mem_takeWhile_scanFrom hstart, relationTo_key, relationFrom_key, UInt64.toNat_inj]
    refine and_congr_right fun _ => and_congr_right fun _ => ?_
    unfold Ahead
    omega
  | backward =>
    show row ∈ (table.revScanFrom _).takeWhile _ ↔ _
    rw [relation_grouped.mem_takeWhile_revScanFrom hstart, relationTo_key, relationFrom_key, UInt64.toNat_inj]
    refine and_congr_right fun _ => and_congr_right fun _ => ?_
    unfold Ahead
    omega

theorem pairwise_scan : (scan table target from' dir).Pairwise fun a b =>
    Ahead dir (relationFrom a.1).toNat (relationFrom b.1).toNat := by
  have hto : ∀ row ∈ scan table target from' dir, relationTo row.1 = target := fun row hrow =>
    ((mem_scan table target from' dir row).mp hrow).2.1
  have hlt : ∀ a ∈ scan table target from' dir, ∀ b ∈ scan table target from' dir, a.1 < b.1 →
      (relationFrom a.1).toNat < (relationFrom b.1).toNat := by
    intro a ha b hb hlt
    exact (relation_grouped.rank_lt_iff (congrArg UInt64.toNat ((hto a ha).trans (hto b hb).symm))).mp hlt
  cases dir with
  | forward =>
    refine ((table.pairwise_scanFrom _).sublist (List.takeWhile_sublist _)).imp_of_mem ?_
    exact fun {a b} ha hb h => Int.ofNat_lt.mpr (hlt a ha b hb h)
  | backward =>
    refine ((table.pairwise_revScanFrom _).sublist (List.takeWhile_sublist _)).imp_of_mem ?_
    exact fun {a b} ha hb h => Int.ofNat_lt.mpr (hlt b hb a ha h)

def froms : List UInt64 :=
  ((scan table target from' dir).map fun row => relationFrom row.1).filter fun f =>
    passes from' dir (Count.fromUnsigned f)

theorem considered_eq :
    considered table target from' dir = (froms table target from' dir).map Count.fromUnsigned := by
  unfold considered froms
  rw [List.filter_map, List.filter_map, List.map_map]
  rfl

theorem intoUnsigned_fromUnsigned (f : UInt64) : (Count.fromUnsigned f).intoUnsigned = f := by
  unfold Count.fromUnsigned Count.fromSigned
  split <;> rfl

def Takes (f : UInt64) : Prop :=
  Ahead dir (fromUnsigned from' dir).toNat f.toNat ∨ (from' = .min ∨ from' = .max) ∧ f = fromUnsigned from' dir

theorem passes_iff (f : UInt64) : passes from' dir (Count.fromUnsigned f) = true ↔
    (from' = .min ∨ from' = .max) ∨ Ahead dir (fromUnsigned from' dir).toNat f.toNat := by
  unfold passes
  rw [intoUnsigned_fromUnsigned]
  split
  · rename_i hend
    exact iff_of_true rfl (Or.inl hend)
  · rename_i hend
    rw [or_iff_right hend]
    cases dir with
    | forward => rw [decide_eq_true_eq, UInt64.lt_iff_toNat_lt, Ahead, Int.ofNat_lt]
    | backward => rw [decide_eq_true_eq, UInt64.lt_iff_toNat_lt, Ahead, Int.ofNat_lt]

theorem mem_froms (f : UInt64) : f ∈ froms table target from' dir ↔ Stored table target f ∧ Takes from' dir f := by
  have hrow : f ∈ (scan table target from' dir).map (fun row => relationFrom row.1) ↔
      Stored table target f ∧ (f = fromUnsigned from' dir ∨ Ahead dir (fromUnsigned from' dir).toNat f.toNat) := by
    rw [List.mem_map]
    constructor
    · rintro ⟨row, hrow, rfl⟩
      obtain ⟨hmem, rfl, hahead⟩ := (mem_scan table target from' dir row).mp hrow
      refine ⟨⟨row.2, ?_⟩, hahead⟩
      rw [relationKey_eq]
      exact hmem
    · rintro ⟨⟨v, hmem⟩, hahead⟩
      refine ⟨(relationKey target f, v), (mem_scan table target from' dir _).mpr ?_, relationFrom_key target f⟩
      rw [relationTo_key, relationFrom_key]
      exact ⟨hmem, rfl, hahead⟩
  unfold froms Takes
  rw [List.mem_filter, hrow, passes_iff, and_assoc]
  refine and_congr_right fun _ => ?_
  tauto

theorem pairwise_froms : (froms table target from' dir).Pairwise fun f g => Ahead dir f.toNat g.toNat := by
  refine List.Pairwise.sublist List.filter_sublist ?_
  rw [List.pairwise_map]
  exact pairwise_scan table target from' dir

def signedValue (f : UInt64) : Int := (Count.fromUnsigned f).value

theorem signedValue_eq (f : UInt64) :
    signedValue f = if f.toNat < 2 ^ 63 then (f.toNat : Int) else f.toNat - 2 ^ 64 :=
  (Count.fromSigned_is _).2.trans (I64.toInt_toInt64 f)

theorem fromUnsigned_injective {f g : UInt64} (h : Count.fromUnsigned f = Count.fromUnsigned g) : f = g := by
  have hword := congrArg Count.intoUnsigned h
  rwa [intoUnsigned_fromUnsigned, intoUnsigned_fromUnsigned] at hword

/-- A page is exact where the unsigned words take the relations that the signed ones would,
and order those that they take alike. -/
theorem exactPage_iff_words : ExactPage table target from' dir (considered table target from' dir) ↔
    (∀ f, Stored table target f → (Takes from' dir f ↔ Ahead dir from'.value (signedValue f))) ∧
    ∀ f g, Stored table target f → Takes from' dir f → Stored table target g → Takes from' dir g →
      f.toNat < g.toNat → signedValue f < signedValue g := by
  have hmem : ∀ f, Count.fromUnsigned f ∈ considered table target from' dir ↔
      Stored table target f ∧ Takes from' dir f := fun f => by
    rw [considered_eq, List.mem_map, ← mem_froms]
    exact ⟨fun ⟨g, hg, hgf⟩ => fromUnsigned_injective hgf ▸ hg, fun hf => ⟨f, hf, rfl⟩⟩
  constructor
  · rintro ⟨hexact, hordered⟩
    constructor
    · intro f hf
      have hf' := (hmem f).symm.trans (hexact (.fromUnsigned f))
      rwa [and_iff_right hf, and_iff_right ⟨f, hf, rfl⟩] at hf'
    · -- Any two of the page stand in the same order by either word.
      intro f g hf htf hg htg
      rw [considered_eq, List.pairwise_map] at hordered
      have hword := pairwise_froms table target from' dir
      have hfmem := (mem_froms table target from' dir f).mpr ⟨hf, htf⟩
      have hgmem := (mem_froms table target from' dir g).mpr ⟨hg, htg⟩
      intro hlt
      cases dir with
      | forward => exact hword.alike hordered (fun _ _ => Int.lt_asymm) hfmem hgmem (Int.ofNat_lt.mpr hlt)
      | backward => exact hword.alike hordered (fun _ _ => Int.lt_asymm) hgmem hfmem (Int.ofNat_lt.mpr hlt)
  · rintro ⟨htakes, hordered⟩
    constructor
    · intro c
      constructor
      · intro hc
        rw [considered_eq] at hc
        obtain ⟨f, hf, rfl⟩ := List.mem_map.mp hc
        obtain ⟨hstored, htake⟩ := (mem_froms table target from' dir f).mp hf
        exact ⟨⟨f, hstored, rfl⟩, (htakes f hstored).mp htake⟩
      · rintro ⟨⟨f, hf, rfl⟩, hahead⟩
        exact (hmem f).mpr ⟨hf, (htakes f hf).mpr hahead⟩
    · rw [considered_eq, List.pairwise_map]
      refine (pairwise_froms table target from' dir).imp_of_mem fun {f g} hfmem hgmem hword => ?_
      obtain ⟨hf, htf⟩ := (mem_froms table target from' dir f).mp hfmem
      obtain ⟨hg, htg⟩ := (mem_froms table target from' dir g).mp hgmem
      show Ahead dir (signedValue f) (signedValue g)
      cases dir with
      | forward => exact hordered f g hf htf hg htg (Int.ofNat_lt.mp hword)
      | backward => exact hordered g f hg htg hf htf (Int.ofNat_lt.mp hword)

end

/-! ## Where pages are exact -/

theorem eq_max_iff {c : Count} (hc : c.Valid) : c = .max ↔ c.value = 2 ^ 63 - 1 := by
  refine ⟨fun h => h ▸ rfl, fun h => ?_⟩
  cases c with
  | normal i =>
    rw [Count.value_normal hc] at h
    exact congrArg Count.normal (UInt64.toNat_inj.mp (by show i.toNat = 9223372036854775807; omega))
  | backfilled i =>
    have hi : i.toInt ≤ 0 := hc
    have hvalue : i.toInt = 2 ^ 63 - 1 := h
    omega

theorem eq_min_iff {c : Count} (hc : c.Valid) : c = .min ↔ c.value = -2 ^ 63 := by
  refine ⟨fun h => h ▸ rfl, fun h => ?_⟩
  cases c with
  | normal i =>
    rw [Count.value_normal hc] at h
    omega
  | backfilled i => exact congrArg Count.backfilled (Int64.toInt_inj.mp h)

theorem toNat_fromUnsigned {c : Count} (hc : c.Valid) (dir : Direction) :
    ((fromUnsigned c dir).toNat : Int) =
      if 0 ≤ c.value then c.value else match dir with
        | .forward => 0
        | .backward => c.value + 2 ^ 64 := by
  cases c with
  | normal i =>
    have hvalue := Count.value_normal hc
    rw [hvalue, if_pos (Int.natCast_nonneg _)]
    cases dir <;> rfl
  | backfilled i =>
    have hi : i.toInt ≤ 0 := hc
    cases dir with
    | forward =>
      show (0 : Int) = if 0 ≤ i.toInt then i.toInt else 0
      split <;> omega
    | backward => exact I64.toNat_toUInt64 i

section
variable (table : RelationTable) (target : UInt64) (from' : ValidCount) (f g : UInt64)

theorem takes_iff (dir : Direction) : Takes from'.1 dir f ↔
    Ahead dir (fromUnsigned from'.1 dir).toNat f.toNat ∨
      (from'.1.value = -2 ^ 63 ∨ from'.1.value = 2 ^ 63 - 1) ∧
        (f.toNat : Int) = (fromUnsigned from'.1 dir).toNat := by
  unfold Takes
  rw [eq_min_iff from'.2, eq_max_iff from'.2, ← UInt64.toNat_inj, Int.natCast_inj]

theorem takes_forward_iff : (Takes from'.1 .forward f ↔ Ahead .forward from'.1.value (signedValue f)) ↔
    if from'.1.value = 2 ^ 63 - 1 then f.toNat < 2 ^ 63 - 1
    else if 0 ≤ from'.1.value then f.toNat < 2 ^ 63
    else (f.toNat = 0 → from'.1.value = -2 ^ 63) ∧ (2 ^ 63 ≤ f.toNat → from'.1.value + 2 ^ 64 < f.toNat) := by
  have hrange := value_inRange from'.1
  have hf := f.toNat_lt
  rw [takes_iff, toNat_fromUnsigned from'.2, signedValue_eq]
  unfold InRange at hrange
  unfold Ahead
  simp only
  generalize from'.1.value = v at *
  generalize f.toNat = n at *
  split_ifs <;> omega

theorem takes_backward_iff : (Takes from'.1 .backward f ↔ Ahead .backward from'.1.value (signedValue f)) ↔
    if from'.1.value = 2 ^ 63 - 1 then f.toNat < 2 ^ 63 - 1
    else if 0 ≤ from'.1.value then f.toNat < 2 ^ 63
    else if from'.1.value = -2 ^ 63 then 2 ^ 63 < f.toNat
    else 2 ^ 63 ≤ f.toNat := by
  have hrange := value_inRange from'.1
  have hf := f.toNat_lt
  rw [takes_iff, toNat_fromUnsigned from'.2, signedValue_eq]
  unfold InRange at hrange
  unfold Ahead
  simp only
  generalize from'.1.value = v at *
  generalize f.toNat = n at *
  split_ifs <;> omega

theorem signedValue_lt_iff (hlt : f.toNat < g.toNat) :
    signedValue f < signedValue g ↔ g.toNat < 2 ^ 63 ∨ 2 ^ 63 ≤ f.toNat := by
  have hg := g.toNat_lt
  rw [signedValue_eq, signedValue_eq]
  split_ifs <;> omega

theorem words_agree_iff {P : UInt64 → Prop} {T : UInt64 → Prop} {low high : Int}
    (hP : ∀ f, P f ↔ low ≤ f.toNat ∧ f.toNat < high) (hside : high ≤ 2 ^ 63 ∨ 2 ^ 63 ≤ low) :
    ((∀ f, Stored table target f → P f) ∧
      ∀ f g, Stored table target f → T f → Stored table target g → T g → f.toNat < g.toNat →
        signedValue f < signedValue g) ↔ Between table target low high := by
  unfold Between
  simp only [hP]
  refine and_iff_left_of_imp fun h f g hf _ hg _ hlt => (signedValue_lt_iff f g hlt).mpr ?_
  have hlow := (h f hf).1
  have hhigh := (h g hg).2
  omega

theorem exactPage_backward_iff :
    ExactPage table target from'.1 .backward (considered table target from'.1 .backward) ↔
      Fits table target from'.1 .backward := by
  rw [exactPage_iff_words]
  unfold Fits
  simp only [takes_backward_iff, eq_max_iff from'.2, eq_min_iff from'.2]
  split
  · exact words_agree_iff table target (fun f => by omega) (by omega)
  · split
    · exact words_agree_iff table target (fun f => by omega) (by omega)
    · split
      · exact words_agree_iff table target (fun f => by have := f.toNat_lt; omega) (by omega)
      · exact words_agree_iff table target (fun f => by have := f.toNat_lt; omega) (by omega)

theorem takes_forward_of_neg (hneg : from'.1.value < 0) :
    Takes from'.1 .forward f ↔ 0 < f.toNat ∨ from'.1.value = -2 ^ 63 := by
  rw [takes_iff, toNat_fromUnsigned from'.2, if_neg (not_le.mpr hneg)]
  show (0 : Int) < f.toNat ∨ _ ∧ (f.toNat : Int) = 0 ↔ _
  omega

/-- Forwards from a backfilled start live and backfilled relations cannot be on one page. -/
theorem exactPage_forward_neg_iff (hneg : from'.1.value < 0) :
    ((∀ f, Stored table target f →
        (f.toNat = 0 → from'.1.value = -2 ^ 63) ∧ (2 ^ 63 ≤ f.toNat → from'.1.value + 2 ^ 64 < f.toNat)) ∧
      ∀ f g, Stored table target f → Takes from'.1 .forward f → Stored table target g →
        Takes from'.1 .forward g → f.toNat < g.toNat → signedValue f < signedValue g) ↔
      Between table target (if from'.1.value = -2 ^ 63 then 0 else 1) (2 ^ 63) ∨
        Between table target (from'.1.value + 2 ^ 64 + 1) (2 ^ 64) := by
  have hrange := value_inRange from'.1
  unfold InRange at hrange
  simp only [takes_forward_of_neg from' _ hneg]
  constructor
  · rintro ⟨htakes, hordered⟩
    by_cases hlive : ∃ f, Stored table target f ∧ f.toNat < 2 ^ 63
    · obtain ⟨f, hf, hlive⟩ := hlive
      refine Or.inl fun g hg => ?_
      have hf' := htakes f hf
      have hg' := htakes g hg
      have hlt : g.toNat < 2 ^ 63 := by
        by_contra hback
        have hside := hordered f g hf (by omega) hg (by omega) (by omega)
        rw [signedValue_lt_iff f g (by omega)] at hside
        omega
      split <;> omega
    · refine Or.inr fun g hg => ?_
      have hg' := htakes g hg
      have hlt := g.toNat_lt
      have hback : ¬g.toNat < 2 ^ 63 := fun hlt => hlive ⟨g, hg, hlt⟩
      omega
  · rintro (hfits | hfits)
    · refine ⟨fun f hf => ?_, fun f g _ _ hg _ hlt => (signedValue_lt_iff f g hlt).mpr (Or.inl ?_)⟩
      · have hf' := hfits f hf
        split_ifs at hf' <;> omega
      · have hg' := hfits g hg
        omega
    · refine ⟨fun f hf => ?_, fun f g hf _ _ _ hlt => (signedValue_lt_iff f g hlt).mpr (Or.inr ?_)⟩
      · have hf' := hfits f hf
        omega
      · have hf' := hfits f hf
        omega

theorem exactPage_forward_iff :
    ExactPage table target from'.1 .forward (considered table target from'.1 .forward) ↔
      Fits table target from'.1 .forward := by
  rw [exactPage_iff_words]
  unfold Fits
  simp only [takes_forward_iff, eq_max_iff from'.2, eq_min_iff from'.2]
  split
  · exact words_agree_iff table target (fun f => by omega) (by omega)
  · split
    · exact words_agree_iff table target (fun f => by omega) (by omega)
    · exact exactPage_forward_neg_iff table target from' (by omega)

end

/-- Whether a page has exactly the relations of the event ahead of its start, in order. -/
theorem page_exact_iff (table : RelationTable) (target : UInt64) (from' : ValidCount) (dir : Direction) :
    ExactPage table target from'.1 dir (considered table target from'.1 dir) ↔
      Fits table target from'.1 dir := by
  cases dir with
  | forward => exact exactPage_forward_iff table target from'
  | backward => exact exactPage_backward_iff table target from'

/-- A live relation is on the page downwards from a backfilled count. -/
theorem live_relation_before_backfilled : ∃ (table : RelationTable) (from' : ValidCount),
    table = addRelation .empty 9 7 ∧ from'.1 = .backfilled (-5) ∧
    considered table 7 from'.1 .backward = [.normal 9] ∧
    ¬ ExactPage table 7 from'.1 .backward (considered table 7 from'.1 .backward) := by
  refine ⟨addRelation .empty 9 7, ⟨.backfilled (-5), by decide⟩, rfl, rfl, by decide, ?_⟩
  rw [exactPage_backward_iff]
  intro hfits
  have hstored : Stored (addRelation .empty 9 7) 7 9 := (stored_addRelation _ _ _ _ _).mpr (Or.inl ⟨rfl, rfl⟩)
  have hside : Between (addRelation .empty 9 7) 7 (2 ^ 63) (2 ^ 64) := hfits
  exact absurd (hside 9 hstored).1 (by decide)

end Congruent.RelationPages
