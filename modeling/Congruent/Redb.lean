import Mathlib.Data.List.Induction
import Congruent.SortedMap
import Congruent.Store

/-!
# Maps in one table (`engine/redb.rs`)

The maps of the database are prefixes in one ordered table. Every operation on a map
answers and changes what it would on an ordered map of its own.
-/

namespace Congruent.Redb

open Store (Bytes toBeBytes length_toBeBytes toBeBytes_inj utf8 ofUtf8_utf8)

instance byteOrder : LinearOrder UInt8 where
  le_refl := UInt8.le_refl
  le_trans _ _ _ := UInt8.le_trans
  le_antisymm _ _ := UInt8.le_antisymm
  le_total := UInt8.le_total
  lt_iff_le_not_ge a b := by
    rw [UInt8.not_le]
    exact ⟨fun h => ⟨UInt8.le_of_lt h, h⟩, fun h => h.2⟩
  toDecidableLE := inferInstance
  toDecidableLT := inferInstance
  toDecidableEq := inferInstance

/-- `conduwuit_metadata`. -/
abbrev Table := SortedMap Bytes Bytes

/-! ## The engine -/

def compositeKey (mapName : String) (key : Bytes) : Option Bytes :=
  let map := utf8 mapName
  if map.length < 2 ^ 32 ∧ map.length + key.length + 4 < 2 ^ 64 then some (toBeBytes 4 map.length ++ map ++ key)
  else none

def prefixEndRev : Bytes → Option Bytes
  | [] => none
  | last :: rest => if last = 255 then prefixEndRev rest else some ((last + 1) :: rest).reverse

/-- The smallest string greater than every string that starts with `start`. -/
def prefixEnd (start : Bytes) : Option Bytes := prefixEndRev start.reverse

inductive DbOp where
  | insert (mapName : String) (key value : Bytes)
  | remove (mapName : String) (key : Bytes)

def DbOp.mapName : DbOp → String
  | insert mapName _ _ | remove mapName _ => mapName

def DbOp.key : DbOp → Bytes
  | insert _ key _ | remove _ key => key

inductive Direction where
  | forward
  | reverse

inductive IteratorMode where
  | start
  | «end»
  | «from» (key : Bytes) (direction : Direction)

def IteratorMode.key : IteratorMode → Bytes
  | start | «end» => []
  | «from» key _ => key

namespace Table

def apply (t : Table) : DbOp → Option Table
  | .insert mapName key value => (compositeKey mapName key).map fun composite => t.insert composite value
  | .remove mapName key => (compositeKey mapName key).map fun composite => t.remove composite

def commitInner (t : Table) (operations : List DbOp) : Option Table := operations.foldlM apply t

def get (t : Table) (mapName : String) (key : Bytes) : Option (Option Bytes) :=
  (compositeKey mapName key).map (SortedMap.get t)

/-- Entries in key order, without the prefix of their map. -/
def range (t : Table) (lower : Bytes) (upper : Option Bytes) (strip : Nat) : List (Bytes × Bytes) :=
  (SortedMap.range t lower upper).entries.map fun e => (e.1.drop strip, e.2)

def scanPrefix (t : Table) (mapName : String) (start : Bytes) : Option (List (Bytes × Bytes)) := do
  let lower ← compositeKey mapName start
  let mapPrefix ← compositeKey mapName []
  return t.range lower (prefixEnd lower) mapPrefix.length

def scan (t : Table) (mapName : String) (mode : IteratorMode) : Option (List (Bytes × Bytes)) := do
  let mapPrefix ← compositeKey mapName []
  let upper := prefixEnd mapPrefix
  match mode with
  | .start => return t.range mapPrefix upper mapPrefix.length
  | .end => return (t.range mapPrefix upper mapPrefix.length).reverse
  | .from key .forward =>
    let lower ← compositeKey mapName key
    return t.range lower upper mapPrefix.length
  | .from key .reverse =>
    let upper ← compositeKey mapName key
    return (t.range mapPrefix (some (upper ++ [0])) mapPrefix.length).reverse

def cfExists (t : Table) (mapName : String) : Option Bool := do
  let mapPrefix ← compositeKey mapName []
  return !(SortedMap.range t mapPrefix (prefixEnd mapPrefix)).entries.isEmpty

def dropCf (t : Table) (mapName : String) : Option Table := do
  let mapPrefix ← compositeKey mapName []
  return ((SortedMap.range t mapPrefix (prefixEnd mapPrefix)).entries.map (·.1)).foldl SortedMap.remove t

end Table

inductive Action where
  | commit (operations : List DbOp)
  | dropCf (mapName : String)

/-- A call that panics drops its transaction. -/
def Table.run (t : Table) : Action → Table
  | .commit operations => (t.commitInner operations).getD t
  | .dropCf mapName => (t.dropCf mapName).getD t

/-! ## A map for each name -/

abbrev Maps := String → SortedMap Bytes Bytes

def fits (mapName : String) (key : Bytes) : Bool := (compositeKey mapName key).isSome

namespace Maps

def apply (m : Maps) : DbOp → Maps
  | .insert mapName key value => Function.update m mapName ((m mapName).insert key value)
  | .remove mapName key => Function.update m mapName ((m mapName).remove key)

def run (m : Maps) : Action → Maps
  | .commit operations => if operations.all fun op => fits op.mapName op.key then operations.foldl apply m else m
  | .dropCf mapName => Function.update m mapName .empty

def scanPrefix (m : Maps) (mapName : String) (start : Bytes) : List (Bytes × Bytes) :=
  ((m mapName).retain fun key => start.isPrefixOf key).entries

def scan (m : Maps) (mapName : String) : IteratorMode → List (Bytes × Bytes)
  | .start => (m mapName).entries
  | .end => (m mapName).entries.reverse
  | .from key .forward => ((m mapName).retain fun x => key ≤ x).entries
  | .from key .reverse => ((m mapName).retain fun x => x ≤ key).entries.reverse

end Maps

/-! ## Ranges of keys -/

theorem le_prefixEnd_iff (start k : Bytes) : (start ≤ k ∧ ∀ e ∈ prefixEnd start, k < e) ↔ start <+: k := by
  induction start using List.reverseRecOn generalizing k with
  | nil => simp [prefixEnd, prefixEndRev, ← not_lt]
  | append_singleton start last ih =>
    have hend : prefixEnd (start ++ [last]) =
        if last = 255 then prefixEnd start else some (start ++ [last + 1]) := by
      simp [prefixEnd, prefixEndRev]
    rw [hend]
    split
    · rename_i hlast
      have htop : IsTop last := fun b => by
        rw [hlast]
        exact UInt8.le_iff_toNat_le.mpr (Nat.le_of_lt_succ b.toNat_lt)
      rw [← List.snoc_top_prefix_iff htop, ← ih]
      have hle : start ++ [last] ≤ k → start ≤ k := (List.self_le_append start [last]).trans
      tauto
    · rename_i hlast
      have hsucc : (last + 1).toNat = last.toNat + 1 := by
        have hne : last.toNat ≠ 255 := fun h => hlast (UInt8.toNat_inj.mp h)
        have hlt := last.toNat_lt
        rw [UInt8.toNat_add, UInt8.toNat_one]
        omega
      have hnext : last ⋖ last + 1 := by
        refine ⟨UInt8.lt_iff_toNat_lt.mpr (by omega), fun c hc hlt => ?_⟩
        rw [UInt8.lt_iff_toNat_lt] at hc hlt
        omega
      simp only [Option.mem_def, Option.some.injEq, forall_eq']
      exact List.snoc_le_and_lt_snoc_iff hnext

/-! ## Keys of rows -/

section
variable {mapName mapName' : String} {key key' composite : Bytes}

theorem compositeKey_eq_some (h : compositeKey mapName key = some composite) :
    ∃ mapPrefix, compositeKey mapName [] = some mapPrefix ∧ composite = mapPrefix ++ key := by
  unfold compositeKey at h ⊢
  simp only [Option.ite_none_right_eq_some, Option.some.injEq] at h
  obtain ⟨⟨hmap, hkey⟩, rfl⟩ := h
  refine ⟨_, if_pos ⟨hmap, ?_⟩, by simp⟩
  rw [List.length_nil]
  omega

theorem compositeKey_inj {a b : Bytes} (ha : compositeKey mapName [] = some a)
    (hb : compositeKey mapName' [] = some b)
    (h : a ++ key = b ++ key') : mapName = mapName' ∧ key = key' := by
  unfold compositeKey at ha hb
  simp only [Option.ite_none_right_eq_some, Option.some.injEq, List.append_nil] at ha hb
  obtain ⟨⟨hlen, -⟩, rfl⟩ := ha
  obtain ⟨⟨hlen', -⟩, rfl⟩ := hb
  rw [List.append_assoc, List.append_assoc] at h
  obtain ⟨hcount, h⟩ := List.append_inj h (by rw [length_toBeBytes, length_toBeBytes])
  have hlength := toBeBytes_inj (by omega) (by omega) hcount
  obtain ⟨hname, hkey⟩ := List.append_inj h hlength
  have htext := congrArg Store.ofUtf8 hname
  rw [ofUtf8_utf8, ofUtf8_utf8, Option.some.injEq] at htext
  exact ⟨htext, hkey⟩

end

/-! ## The map of a name -/

/-- The rows whose keys start with a string, without that start. -/
def Table.section (t : Table) (mapPrefix : Bytes) : SortedMap Bytes Bytes where
  entries := (t.retain fun k => mapPrefix.isPrefixOf k).entries.map fun e => (e.1.drop mapPrefix.length, e.2)
  sorted := by
    refine List.pairwise_map.mpr ((t.retain _).sorted.imp_of_mem fun {a b} ha hb hlt => ?_)
    obtain ⟨x, hx⟩ := List.isPrefixOf_iff_prefix.mp (List.mem_filter.mp ha).2
    obtain ⟨y, hy⟩ := List.isPrefixOf_iff_prefix.mp (List.mem_filter.mp hb).2
    rw [← hx, ← hy] at hlt ⊢
    rw [List.drop_left, List.drop_left]
    exact List.append_lt_append_left_iff.mp hlt

section
variable {t : Table} {mapPrefix key value : Bytes}

theorem Table.mem_section : (key, value) ∈ t.section mapPrefix ↔ (mapPrefix ++ key, value) ∈ t := by
  constructor
  · intro h
    obtain ⟨⟨k, v⟩, hmem, heq⟩ := List.mem_map.mp h
    obtain ⟨hmem, hpre⟩ := SortedMap.mem_retain.mp hmem
    obtain ⟨x, rfl⟩ := List.isPrefixOf_iff_prefix.mp hpre
    rw [List.drop_left, Prod.mk.injEq] at heq
    obtain ⟨rfl, rfl⟩ := heq
    exact hmem
  · intro h
    have hmem : (mapPrefix ++ key, value) ∈ t.retain fun k => mapPrefix.isPrefixOf k :=
      SortedMap.mem_retain.mpr ⟨h, List.isPrefixOf_iff_prefix.mpr (List.prefix_append ..)⟩
    refine List.mem_map.mpr ⟨_, hmem, ?_⟩
    rw [List.drop_left]

theorem Table.retain_strip (q : Bytes → Bool) (hq : ∀ k, q k = true → mapPrefix <+: k) :
    ((t.retain q).entries.map fun e => (e.1.drop mapPrefix.length, e.2)) =
      ((t.section mapPrefix).retain fun k => q (mapPrefix ++ k)).entries := by
  unfold SortedMap.retain Table.section
  simp only [List.filter_map, SortedMap.retain]
  rw [List.filter_filter]
  refine congrArg _ (List.filter_congr fun e _ => ?_)
  by_cases hpre : mapPrefix <+: e.1
  · obtain ⟨x, hx⟩ := hpre
    have hpre : mapPrefix.isPrefixOf e.1 = true := List.isPrefixOf_iff_prefix.mpr ⟨x, hx⟩
    simp [← hx]
  · have hout : q e.1 = false := Bool.eq_false_iff.mpr fun h => hpre (hq _ h)
    have hpre : mapPrefix.isPrefixOf e.1 = false :=
      Bool.eq_false_iff.mpr fun h => hpre (List.isPrefixOf_iff_prefix.mp h)
    simp [hout, hpre]

end

/-! ## What the table stands for -/

def Agrees (t : Table) (m : Maps) : Prop :=
  ∀ mapName mapPrefix, compositeKey mapName [] = some mapPrefix → t.section mapPrefix = m mapName

section
variable {t t' : Table} {m : Maps}

theorem agrees_iff : Agrees t m ↔ ∀ mapName mapPrefix, compositeKey mapName [] = some mapPrefix →
    ∀ key value, (mapPrefix ++ key, value) ∈ t ↔ (key, value) ∈ m mapName := by
  refine forall₃_congr fun mapName mapPrefix _ => ?_
  constructor
  · intro h key value
    rw [← h, Table.mem_section]
  · intro h
    ext ⟨key, value⟩
    rw [Table.mem_section, h]

theorem Agrees.empty : Agrees .empty fun _ => .empty :=
  agrees_iff.mpr fun _ _ _ _ _ => iff_of_false (SortedMap.not_mem_empty _) (SortedMap.not_mem_empty _)

theorem row_ne_iff {mapName mapName' : String} {mapPrefix mapPrefix' key key' : Bytes}
    (hp : compositeKey mapName [] = some mapPrefix) (hp' : compositeKey mapName' [] = some mapPrefix') :
    mapPrefix ++ key = mapPrefix' ++ key' ↔ mapName = mapName' ∧ key = key' := by
  constructor
  · exact compositeKey_inj hp hp'
  · rintro ⟨rfl, rfl⟩
    rw [hp, Option.some.injEq] at hp'
    rw [hp']

theorem Agrees.apply (h : Agrees t m) {op : DbOp} (happ : t.apply op = some t') : Agrees t' (m.apply op) := by
  rw [agrees_iff] at h ⊢
  intro mapName mapPrefix hp key value
  cases op with
  | insert opName opKey opValue =>
    obtain ⟨composite, hc, rfl⟩ := Option.map_eq_some_iff.mp happ
    obtain ⟨opPrefix, hop, rfl⟩ := compositeKey_eq_some hc
    rw [SortedMap.mem_insert, Prod.mk.injEq, ne_eq, row_ne_iff hp hop, h _ _ hp]
    by_cases hname : mapName = opName
    · subst hname
      simp [Maps.apply]
    · simp [Maps.apply, hname]
  | remove opName opKey =>
    obtain ⟨composite, hc, rfl⟩ := Option.map_eq_some_iff.mp happ
    obtain ⟨opPrefix, hop, rfl⟩ := compositeKey_eq_some hc
    rw [SortedMap.mem_remove, ne_eq, row_ne_iff hp hop, h _ _ hp]
    by_cases hname : mapName = opName
    · subst hname
      simp [Maps.apply]
    · simp [Maps.apply, hname]

theorem Table.apply_isSome (op : DbOp) : (t.apply op).isSome = fits op.mapName op.key := by
  cases op <;> exact Option.isSome_map

theorem Agrees.commitInner {operations : List DbOp} (h : Agrees t m)
    (hcommit : t.commitInner operations = some t') :
    Agrees t' (operations.foldl Maps.apply m) := by
  induction operations generalizing t m with
  | nil =>
    cases hcommit
    exact h
  | cons op operations ih =>
    obtain ⟨t₁, happ, hcommit⟩ := Option.bind_eq_some_iff.mp hcommit
    exact ih (h.apply happ) hcommit

theorem Table.commitInner_isSome (operations : List DbOp) :
    (t.commitInner operations).isSome = operations.all fun op => fits op.mapName op.key := by
  induction operations generalizing t with
  | nil => rfl
  | cons op operations ih =>
    rw [List.all_cons, ← apply_isSome (t := t)]
    show ((t.apply op).bind fun t => Table.commitInner t operations).isSome = _
    cases t.apply op with
    | none => rfl
    | some t₁ => exact ih

theorem mem_map_rows {mapPrefix k value : Bytes} :
    (k, value) ∈ SortedMap.range t mapPrefix (prefixEnd mapPrefix) ↔ (k, value) ∈ t ∧ mapPrefix <+: k := by
  rw [SortedMap.mem_range, le_prefixEnd_iff]

theorem Agrees.dropCf {mapName : String} (h : Agrees t m) (hdrop : t.dropCf mapName = some t') :
    Agrees t' (Function.update m mapName .empty) := by
  obtain ⟨mapPrefix, hp, hdrop⟩ := Option.bind_eq_some_iff.mp hdrop
  cases hdrop
  rw [agrees_iff] at h ⊢
  intro name namePrefix hname key value
  have hrows : namePrefix ++ key ∈ (SortedMap.range t mapPrefix (prefixEnd mapPrefix)).entries.map (·.1) ↔
      (∃ v, (namePrefix ++ key, v) ∈ t) ∧ name = mapName := by
    rw [List.mem_map]
    constructor
    · rintro ⟨⟨k, v⟩, hmem, rfl⟩
      obtain ⟨hmem, key', hkey⟩ := mem_map_rows.mp hmem
      exact ⟨⟨v, hmem⟩, ((row_ne_iff hp hname).mp hkey).1.symm⟩
    · rintro ⟨⟨v, hmem⟩, rfl⟩
      rw [hname, Option.some.injEq] at hp
      exact ⟨_, mem_map_rows.mpr ⟨hmem, hp ▸ List.prefix_append ..⟩, rfl⟩
  rw [SortedMap.mem_foldl_remove, hrows, h _ _ hname]
  by_cases hn : name = mapName
  · subst hn
    rw [Function.update_self]
    simp only [and_true, SortedMap.not_mem_empty, iff_false, not_and, not_not]
    intro hmem
    exact ⟨value, (h _ _ hname _ _).mpr hmem⟩
  · rw [Function.update_of_ne hn]
    simp [hn]

theorem Agrees.run (h : Agrees t m) (a : Action) : Agrees (t.run a) (m.run a) := by
  cases a with
  | commit operations =>
    show Agrees ((t.commitInner operations).getD t)
      (if operations.all fun op => fits op.mapName op.key then operations.foldl Maps.apply m else m)
    rw [← Table.commitInner_isSome (t := t)]
    cases hc : t.commitInner operations with
    | none => exact h
    | some t' => exact h.commitInner hc
  | dropCf mapName =>
    show Agrees ((t.dropCf mapName).getD t) (Function.update m mapName .empty)
    cases hd : t.dropCf mapName with
    | some t' => exact h.dropCf hd
    | none =>
      -- no other name is touched, and this one has no rows
      intro name namePrefix hname
      have hne : name ≠ mapName := by
        rintro rfl
        unfold Table.dropCf at hd
        rw [hname] at hd
        cases hd
      rw [Function.update_of_ne hne]
      exact h _ _ hname

/-! ## What the operations answer -/

theorem Agrees.get (h : Agrees t m) (mapName : String) (key : Bytes) :
    t.get mapName key = if fits mapName key then some ((m mapName).get key) else none := by
  unfold Table.get fits
  cases hc : compositeKey mapName key with
  | none => rfl
  | some composite =>
    obtain ⟨mapPrefix, hp, rfl⟩ := compositeKey_eq_some hc
    have hget : SortedMap.get t (mapPrefix ++ key) = (m mapName).get key := by
      ext value
      rw [SortedMap.get_eq_some_iff, SortedMap.get_eq_some_iff]
      exact agrees_iff.mp h _ _ hp _ _
    simp [hget]

theorem Agrees.range (h : Agrees t m) {mapName : String} {mapPrefix lower : Bytes} {upper : Option Bytes}
    {q : Bytes → Bool} (hp : compositeKey mapName [] = some mapPrefix)
    (hrange : ∀ k, (lower ≤ k ∧ ∀ e ∈ upper, k < e) ↔ ∃ key, k = mapPrefix ++ key ∧ q key = true) :
    t.range lower upper mapPrefix.length = ((m mapName).retain q).entries := by
  unfold Table.range SortedMap.range
  rw [Table.retain_strip, h _ _ hp]
  · congr 2
    funext key
    rw [Bool.eq_iff_iff, SortedMap.inRange_iff, hrange]
    simp
  · intro k hk
    obtain ⟨key, rfl, -⟩ := (hrange k).mp (SortedMap.inRange_iff.mp hk)
    exact List.prefix_append ..

theorem le_prefixEnd_iff_exists {start k : Bytes} :
    (start ≤ k ∧ ∀ e ∈ prefixEnd start, k < e) ↔ ∃ key, k = start ++ key := by
  rw [le_prefixEnd_iff]
  exact exists_congr fun key => eq_comm

theorem Agrees.allRows (h : Agrees t m) {mapName : String} {mapPrefix : Bytes}
    (hp : compositeKey mapName [] = some mapPrefix) :
    t.range mapPrefix (prefixEnd mapPrefix) mapPrefix.length = (m mapName).entries := by
  rw [h.range (q := fun _ => true) hp, SortedMap.retain_true]
  intro k
  rw [le_prefixEnd_iff_exists]
  simp

theorem Agrees.scanPrefix (h : Agrees t m) (mapName : String) (start : Bytes) :
    t.scanPrefix mapName start = if fits mapName start then some (m.scanPrefix mapName start) else none := by
  unfold Table.scanPrefix fits
  cases hc : compositeKey mapName start with
  | none => rfl
  | some composite =>
    obtain ⟨mapPrefix, hp, rfl⟩ := compositeKey_eq_some hc
    have hrows : ∀ k, (mapPrefix ++ start ≤ k ∧ ∀ e ∈ prefixEnd (mapPrefix ++ start), k < e) ↔
        ∃ key, k = mapPrefix ++ key ∧ start.isPrefixOf key = true := by
      intro k
      rw [le_prefixEnd_iff_exists]
      constructor
      · rintro ⟨key, rfl⟩
        exact ⟨start ++ key, by simp, by simp⟩
      · rintro ⟨key, rfl, hkey⟩
        obtain ⟨rest, rfl⟩ := List.isPrefixOf_iff_prefix.mp hkey
        exact ⟨rest, by simp⟩
    rw [hp]
    exact congrArg some (h.range hp hrows)

theorem Agrees.cfExists (h : Agrees t m) (mapName : String) :
    t.cfExists mapName = if fits mapName [] then some (!(m mapName).entries.isEmpty) else none := by
  unfold Table.cfExists fits
  cases hp : compositeKey mapName [] with
  | none => rfl
  | some mapPrefix =>
    have hrows := h.allRows hp
    rw [Option.isSome_some, if_pos rfl, ← hrows]
    unfold Table.range
    simp

theorem between_iff_exists {mapPrefix key k : Bytes} (hlow : mapPrefix ≤ k) (hup : k ≤ mapPrefix ++ key) :
    ∃ x, k = mapPrefix ++ x :=
  le_prefixEnd_iff_exists.mp ⟨hlow, fun e he =>
    hup.trans_lt ((le_prefixEnd_iff_exists.mpr ⟨key, rfl⟩).2 e he)⟩

theorem Agrees.scanForward (h : Agrees t m) {mapName : String} {mapPrefix : Bytes}
    (hp : compositeKey mapName [] = some mapPrefix) (key : Bytes) :
    t.range (mapPrefix ++ key) (prefixEnd mapPrefix) mapPrefix.length = ((m mapName).retain (key ≤ ·)).entries := by
  refine h.range hp fun k => ?_
  constructor
  · rintro ⟨hle, hlt⟩
    obtain ⟨x, rfl⟩ := le_prefixEnd_iff_exists.mp ⟨(List.self_le_append mapPrefix key).trans hle, hlt⟩
    exact ⟨x, rfl, decide_eq_true (List.append_le_append_left_iff.mp hle)⟩
  · rintro ⟨x, rfl, hx⟩
    refine ⟨List.append_le_append_left_iff.mpr (of_decide_eq_true hx), ?_⟩
    exact (le_prefixEnd_iff_exists.mpr ⟨x, rfl⟩).2

theorem Agrees.scanReverse (h : Agrees t m) {mapName : String} {mapPrefix : Bytes}
    (hp : compositeKey mapName [] = some mapPrefix) (key : Bytes) :
    t.range mapPrefix (some (mapPrefix ++ key ++ [0])) mapPrefix.length =
      ((m mapName).retain (· ≤ key)).entries := by
  have hbot : IsBot (0 : UInt8) := fun b => UInt8.le_iff_toNat_le.mpr (Nat.zero_le _)
  refine h.range hp fun k => ?_
  simp only [Option.mem_def, Option.some.injEq, forall_eq', List.lt_snoc_bot_iff hbot]
  constructor
  · rintro ⟨hlow, hup⟩
    obtain ⟨x, rfl⟩ := between_iff_exists hlow hup
    exact ⟨x, rfl, decide_eq_true (List.append_le_append_left_iff.mp hup)⟩
  · rintro ⟨x, rfl, hx⟩
    exact ⟨List.self_le_append .., List.append_le_append_left_iff.mpr (of_decide_eq_true hx)⟩

theorem Agrees.scan (h : Agrees t m) (mapName : String) (mode : IteratorMode) :
    t.scan mapName mode = if fits mapName mode.key then some (m.scan mapName mode) else none := by
  unfold Table.scan fits
  cases hp : compositeKey mapName [] with
  | none =>
    cases hc : compositeKey mapName mode.key with
    | none => rfl
    | some composite =>
      obtain ⟨mapPrefix, hp', -⟩ := compositeKey_eq_some hc
      rw [hp] at hp'
      cases hp'
  | some mapPrefix =>
    have hall := h.allRows hp
    cases mode with
    | start => simp [IteratorMode.key, Maps.scan, hp, hall]
    | «end» => simp [IteratorMode.key, Maps.scan, hp, hall]
    | «from» key direction =>
      cases hc : compositeKey mapName key with
      | none => cases direction <;> simp [IteratorMode.key, hc]
      | some composite =>
        obtain ⟨mapPrefix', hp', rfl⟩ := compositeKey_eq_some hc
        rw [hp, Option.some.injEq] at hp'
        subst hp'
        cases direction with
        | forward => simp [IteratorMode.key, Maps.scan, hc, h.scanForward hp]
        | reverse =>
          have hrows := h.scanReverse hp key
          rw [List.append_assoc] at hrows
          simp [IteratorMode.key, Maps.scan, hc, hrows]

end

/-! ## Runs -/

/-- After any batches and dropped maps, every operation on a map answers what it would on
a map of its own, as far as its name and key fit; it panics where they do not. -/
theorem one_table_many_maps (actions : List Action) (mapName : String) :
    let t := actions.foldl Table.run .empty
    let m := actions.foldl Maps.run fun _ => .empty
    (∀ key, t.get mapName key = if fits mapName key then some ((m mapName).get key) else none) ∧
      (∀ mode, t.scan mapName mode = if fits mapName mode.key then some (m.scan mapName mode) else none) ∧
      (∀ start, t.scanPrefix mapName start =
        if fits mapName start then some (m.scanPrefix mapName start) else none) ∧
      t.cfExists mapName = if fits mapName [] then some (!(m mapName).entries.isEmpty) else none := by
  intro t m
  have hagrees : Agrees t m := by
    have hrun : ∀ (actions : List Action) (t : Table) (m : Maps), Agrees t m →
        Agrees (actions.foldl Table.run t) (actions.foldl Maps.run m) := by
      intro actions
      induction actions with
      | nil => exact fun _ _ h => h
      | cons a actions ih => exact fun t m h => ih _ _ (h.run a)
    exact hrun actions _ _ .empty
  exact ⟨hagrees.get mapName, hagrees.scan mapName, hagrees.scanPrefix mapName, hagrees.cfExists mapName⟩

end Congruent.Redb
