import Congruent.BreadthFirst
import Congruent.Store

/-!
# Recursive lookups (`Map::recursive_multi_get` of `database/map.rs`)

The values of the roots are parsed, the keys they lead to are looked up next, and so on,
a level at a time. A number of nodes and a number of levels limit the walk.
-/

namespace Congruent.RecursiveGet

open Store (Bytes)

/-- A map of the database: its rows, and for a key whose read fails the error. -/
structure DbMap (E : Type) where
  rows : AList fun _ : Bytes => Bytes
  failing : Bytes → Option E

structure RecursiveGetOutput (V K : Type) where
  values : List V
  missing : List K
  truncated : Bool
  deriving DecidableEq

section
variable {K V E : Type} [DecidableEq K]

/-- `self.db.get(self.name, key)`. -/
def DbMap.get (map : DbMap E) (key : Bytes) : Except E (Option Bytes) :=
  match map.failing key with
  | some e => .error e
  | none => .ok (map.rows.lookup key)

/-- A call: the map, how a key is written, and the callbacks. `extractChildren` has the keys
that a value pushes to the sink. -/
structure Call (K V E : Type) where
  map : DbMap E
  asRef : K → Bytes
  maxNodes : Option Nat
  maxDepth : Option Nat
  parseValue : Bytes → Except E V
  extractChildren : V → List K

/-- What the turns of a level write to. -/
structure Batch (K V : Type) where
  next : List K
  values : List V
  missing : List K
  truncated : Bool

namespace Call

/-- `limit.is_some_and(|limit| n >= limit)`. -/
def reached (limit : Option Nat) (n : Nat) : Bool := limit.any (· ≤ n)

def visit (call : Call K V E) (batch : Batch K V) (key : K) : Except E (Batch K V) := do
  match ← call.map.get (call.asRef key) with
  | some bytes =>
    if reached call.maxNodes batch.values.length then
      .ok { batch with truncated := true }
    else
      let value ← call.parseValue bytes
      .ok { batch with next := batch.next ++ call.extractChildren value, values := batch.values ++ [value] }
  | none => .ok { batch with missing := batch.missing ++ [key] }

/-- `visited`, of which only membership is asked, has its keys in the order of insertion. -/
structure Walk (K V : Type) where
  visited : List K
  current : List K
  values : List V
  missing : List K
  depth : Nat

/-- The keys that `visited.insert` takes, with what is visited then. -/
def insertNew (visited : List K) : List K → List K × List K
  | [] => (visited, [])
  | key :: keys =>
    if key ∈ visited then insertNew visited keys
    else ((insertNew (visited ++ [key]) keys).1, key :: (insertNew (visited ++ [key]) keys).2)

/-- `usize::saturating_add(1)`. -/
def bump (n : Nat) : Nat := min (n + 1) 18446744073709551615

def run (call : Call K V E) : (fuel : Nat) → Walk K V → Option (Except E (RecursiveGetOutput V K))
  | 0, _ => none
  | fuel + 1, w =>
    if w.current = [] then some (.ok ⟨w.values, w.missing, false⟩)
    else if reached call.maxDepth w.depth || reached call.maxNodes w.values.length then
      some (.ok ⟨w.values, w.missing, true⟩)
    else match w.current.foldlM call.visit ⟨[], w.values, w.missing, false⟩ with
      | .error e => some (.error e)
      | .ok batch =>
        if batch.truncated then some (.ok ⟨batch.values, batch.missing, true⟩)
        else
          let (visited, next) := insertNew w.visited batch.next
          call.run fuel ⟨visited, next, batch.values, batch.missing, bump w.depth⟩

def recursiveMultiGet (call : Call K V E) (fuel : Nat) (roots : List K) :
    Option (Except E (RecursiveGetOutput V K)) :=
  let (visited, current) := insertNew [] roots
  call.run fuel ⟨visited, current, [], [], 0⟩

/-! ## The graph of the rows -/

def stored (call : Call K V E) (key : K) : Bool := (call.map.rows.lookup (call.asRef key)).isSome

def valueOf (call : Call K V E) (key : K) : Option V :=
  (call.map.rows.lookup (call.asRef key)).bind fun bytes => (call.parseValue bytes).toOption

def children (call : Call K V E) (key : K) : List K :=
  match call.valueOf key with
  | some value => call.extractChildren value
  | none => []

def keys (call : Call K V E) (roots : List K) : List K :=
  roots ++ call.map.rows.entries.flatMap fun row =>
    match call.parseValue row.2 with
    | .ok value => call.extractChildren value
    | .error _ => []

omit [DecidableEq K] in
theorem children_subset (call : Call K V E) (roots : List K) (key : K) : call.children key ⊆ call.keys roots := by
  intro x hx
  unfold children valueOf at hx
  split at hx
  · rename_i value hvalue
    obtain ⟨bytes, hrow, hparse⟩ := Option.bind_eq_some_iff.mp hvalue
    refine List.mem_append_right _ (List.mem_flatMap.mpr ⟨_, AList.mem_lookup_iff.mp hrow, ?_⟩)
    cases hok : call.parseValue bytes with
    | ok v =>
      rw [hok] at hparse
      cases hparse
      simpa [hok] using hx
    | error e =>
      rw [hok] at hparse
      cases hparse
  · cases hx

/-! ## A level -/

theorem insertNew_eq (xs visited : List K) :
    insertNew visited xs = (visited ++ BreadthFirst.fresh visited xs, BreadthFirst.fresh visited xs) := by
  induction xs generalizing visited with
  | nil => simp [insertNew, BreadthFirst.fresh]
  | cons x xs ih =>
    unfold insertNew BreadthFirst.fresh
    split
    · exact ih visited
    · rw [ih (visited ++ [x])]
      simp

def after (call : Call K V E) (batch : Batch K V) (level : List K) : Batch K V where
  next := batch.next ++ level.flatMap call.children
  values := batch.values ++ level.filterMap call.valueOf
  missing := batch.missing ++ level.filter (!call.stored ·)
  truncated := false

def Within (call : Call K V E) (values : List V) : Prop := ∀ limit, call.maxNodes = some limit →
    values.length ≤ limit

/-- No read fails and every stored value can be parsed. -/
def Readable (call : Call K V E) : Prop :=
  (∀ key, call.map.failing key = none) ∧
    ∀ key bytes, call.map.rows.lookup key = some bytes → ∃ value, call.parseValue bytes = .ok value

section
variable {call : Call K V E} {batch batch' : Batch K V} {key : K}

omit [DecidableEq K] in
theorem visit_cases (h : call.visit batch key = .ok batch') :
    (call.stored key = false ∧ batch' = { batch with missing := batch.missing ++ [key] }) ∨
    (reached call.maxNodes batch.values.length = true ∧ batch' = { batch with truncated := true }) ∨
    (reached call.maxNodes batch.values.length = false ∧ call.stored key = true ∧ ∃ value,
      call.valueOf key = some value ∧
      batch' = { batch with next := batch.next ++ call.extractChildren value,
                            values := batch.values ++ [value] }) := by
  unfold visit DbMap.get at h
  unfold stored valueOf
  cases hfail : call.map.failing (call.asRef key) with
  | some e =>
    rw [hfail] at h
    cases h
  | none =>
    simp only [hfail, bind, Except.bind] at h
    cases hrow : call.map.rows.lookup (call.asRef key) with
    | none =>
      simp only [hrow, Except.ok.injEq] at h
      exact Or.inl ⟨rfl, h.symm⟩
    | some bytes =>
      simp only [hrow] at h
      split at h
      · rename_i hreached
        exact Or.inr (Or.inl ⟨hreached, (Except.ok.inj h).symm⟩)
      · rename_i hreached
        cases hparse : call.parseValue bytes with
        | error e =>
          rw [hparse] at h
          cases h
        | ok value =>
          simp only [hparse, Except.ok.injEq] at h
          refine Or.inr (Or.inr ⟨by simpa using hreached, rfl, value, ?_, h.symm⟩)
          simp [hparse, Except.toOption]

omit [DecidableEq K] in
theorem visit_ok (hreadable : call.Readable) (batch : Batch K V) (key : K) :
    ∃ batch', call.visit batch key = .ok batch' := by
  obtain ⟨hreads, hparses⟩ := hreadable
  unfold visit DbMap.get
  simp only [hreads, bind, Except.bind]
  cases hrow : call.map.rows.lookup (call.asRef key) with
  | none => exact ⟨_, rfl⟩
  | some bytes =>
    obtain ⟨value, hvalue⟩ := hparses _ _ hrow
    simp only [hvalue]
    split <;> exact ⟨_, rfl⟩

omit [DecidableEq K] in
theorem level_ok (hreadable : call.Readable) (level : List K) (batch : Batch K V) :
    ∃ batch', level.foldlM call.visit batch = .ok batch' := by
  induction level generalizing batch with
  | nil => exact ⟨batch, rfl⟩
  | cons key level ih =>
    obtain ⟨batch', hvisit⟩ := visit_ok hreadable batch key
    obtain ⟨last, hlast⟩ := ih batch'
    exact ⟨last, by rw [List.foldlM_cons, hvisit]; exact hlast⟩

omit [DecidableEq K] in
theorem within_visit (hwithin : call.Within batch.values) (h : call.visit batch key = .ok batch') :
    call.Within batch'.values := by
  obtain ⟨-, rfl⟩ | ⟨-, rfl⟩ | ⟨hreached, -, value, -, rfl⟩ := visit_cases h
  · exact hwithin
  · exact hwithin
  · intro limit hlimit
    rw [hlimit] at hreached
    have hlt : batch.values.length < limit := by simpa [reached] using hreached
    rw [List.length_append, List.length_singleton]
    exact hlt

omit [DecidableEq K] in
theorem level_unlimited (hmax : call.maxNodes = none) (level : List K) (batch : Batch K V)
    (h : level.foldlM call.visit batch = .ok batch') : batch'.truncated = batch.truncated := by
  induction level generalizing batch with
  | nil =>
    obtain rfl : batch = batch' := Except.ok.inj h
    rfl
  | cons key level ih =>
    rw [List.foldlM_cons] at h
    cases hvisit : call.visit batch key with
    | error e =>
      rw [hvisit] at h
      cases h
    | ok mid =>
      rw [hvisit] at h
      rw [ih mid h]
      obtain ⟨-, rfl⟩ | ⟨hreached, -⟩ | ⟨-, -, value, -, rfl⟩ := visit_cases hvisit
      · rfl
      · rw [hmax] at hreached
        cases hreached
      · rfl

/-- A level that was not cut off has looked every key up, and found a value where one is stored. -/
structure Looked (call : Call K V E) (batch : Batch K V) (level : List K) (batch' : Batch K V) : Prop where
  eq : batch' = call.after batch level
  found : ∀ key ∈ level, call.stored key = true → (call.valueOf key).isSome

omit [DecidableEq K] in
theorem valueOf_of_not_stored (h : call.stored key = false) : call.valueOf key = none := by
  unfold stored at h
  unfold valueOf
  rw [Option.isSome_eq_false_iff, Option.isNone_iff_eq_none] at h
  rw [h, Option.bind_none]

omit [DecidableEq K] in
theorem level_spec (level : List K) (batch : Batch K V) (h : level.foldlM call.visit batch = .ok batch') :
    (call.Within batch.values → call.Within batch'.values) ∧ (batch.truncated = true → batch'.truncated = true) ∧
      (batch'.truncated = false → call.Looked batch level batch') := by
  induction level generalizing batch with
  | nil =>
    obtain rfl : batch = batch' := Except.ok.inj h
    refine ⟨id, id, fun hcut => ⟨?_, fun key hkey => absurd hkey List.not_mem_nil⟩⟩
    obtain ⟨next, values, missing, truncated⟩ := batch
    obtain rfl : truncated = false := hcut
    simp [after]
  | cons key level ih =>
    rw [List.foldlM_cons] at h
    cases hvisit : call.visit batch key with
    | error e =>
      rw [hvisit] at h
      cases h
    | ok mid =>
      rw [hvisit] at h
      obtain ⟨hwithin, hcut, hlooked⟩ := ih mid h
      refine ⟨fun hw => hwithin (within_visit hw hvisit), ?_, ?_⟩
      · intro ht
        apply hcut
        obtain ⟨-, rfl⟩ | ⟨-, rfl⟩ | ⟨-, -, value, -, rfl⟩ := visit_cases hvisit
        · exact ht
        · rfl
        · exact ht
      · intro hfull
        obtain ⟨heq, hfound⟩ := hlooked hfull
        obtain ⟨hkey, rfl⟩ | ⟨-, rfl⟩ | ⟨-, hkey, value, hvalue, rfl⟩ := visit_cases hvisit
        · have hnone := valueOf_of_not_stored hkey
          refine ⟨?_, ?_⟩
          · rw [heq]
            simp [after, children, hnone, hkey]
          · intro k hk hstored
            rcases List.mem_cons.mp hk with rfl | hk
            · rw [hkey] at hstored
              cases hstored
            · exact hfound k hk hstored
        · rw [hcut rfl] at hfull
          cases hfull
        · refine ⟨?_, ?_⟩
          · rw [heq]
            simp [after, children, hvalue, hkey]
          · intro k hk hstored
            rcases List.mem_cons.mp hk with rfl | hk
            · rw [hvalue]
              rfl
            · exact hfound k hk hstored

end

/-! ## The whole walk -/

/-- The stored keys reachable from the roots give the values, and the others the missing
ones, each once and level by level. -/
def VisitsEachOnce (call : Call K V E) (roots : List K) (output : RecursiveGetOutput V K) : Prop :=
  ∃ order, BreadthFirst.Order roots call.children order ∧
    output.values.map some = (order.filter call.stored).map call.valueOf ∧
    output.missing = order.filter (!call.stored ·)

structure Sound (call : Call K V E) (roots : List K) (result : Except E (RecursiveGetOutput V K)) : Prop where
  within : ∀ output, result = .ok output → call.Within output.values
  exact : ∀ output, result = .ok output → output.truncated = false → call.VisitsEachOnce roots output
  unlimited : ∀ output, result = .ok output → call.maxNodes = none → call.maxDepth = none → output.truncated = false
  returned : call.Readable → ∃ output, result = .ok output

theorem Sound.cut {call : Call K V E} {roots : List K} {values : List V} (hwithin : call.Within values)
    (missing : List K) (hlimited : call.maxNodes = none → call.maxDepth ≠ none) :
    call.Sound roots (.ok ⟨values, missing, true⟩) where
  within := by
    rintro _ ⟨⟩
    exact hwithin
  exact := by
    rintro _ ⟨⟩ hcut
    cases hcut
  unlimited := by
    rintro _ ⟨⟩ hnodes hdepth
    exact absurd hdepth (hlimited hnodes)
  returned _ := ⟨_, rfl⟩

theorem run_succ (call : Call K V E) {result : Except E (RecursiveGetOutput V K)} (fuel : Nat) (w : Walk K V)
    (h : call.run fuel w = some result) : call.run (fuel + 1) w = some result := by
  induction fuel generalizing w with
  | zero => cases h
  | succ fuel ih =>
    rw [run] at h ⊢
    split
    · rwa [if_pos ‹_›] at h
    · rw [if_neg ‹_›] at h
      split
      · rwa [if_pos ‹_›] at h
      · rw [if_neg ‹_›] at h
        split
        · rename_i hlevel
          rwa [hlevel] at h
        · rename_i batch hlevel
          simp only [hlevel] at h
          split
          · rwa [if_pos ‹_›] at h
          · rw [if_neg ‹_›] at h
            exact ih _ h

theorem run_mono (call : Call K V E) {result : Except E (RecursiveGetOutput V K)} {fuel more : Nat} {w : Walk K V}
    (h : call.run fuel w = some result) (hmore : fuel ≤ more) : call.run more w = some result := by
  induction more, hmore using Nat.le_induction with
  | base => exact h
  | succ more _ ih => exact call.run_succ more w ih

/-- The walk with the keys `done` looked up and the visited rest as its level. -/
structure Reached (call : Call K V E) (roots : List K) (n : Nat) (done : List K) (w : Walk K V) : Prop where
  level : BreadthFirst.Level roots call.children n done w.current
  visited : w.visited = done ++ w.current
  values : w.values = done.filterMap call.valueOf
  missing : w.missing = done.filter (!call.stored ·)
  found : ∀ key ∈ done, call.stored key = true → (call.valueOf key).isSome
  within : call.Within w.values

section
variable {call : Call K V E} {roots : List K} {n : Nat} {done : List K} {w : Walk K V}

omit [DecidableEq K] in
theorem map_valueOf (done : List K) (h : ∀ key ∈ done, call.stored key = true → (call.valueOf key).isSome) :
    (done.filterMap call.valueOf).map some = (done.filter call.stored).map call.valueOf := by
  induction done with
  | nil => rfl
  | cons key done ih =>
    have hrest := ih fun k hk => h k (List.mem_cons_of_mem _ hk)
    cases hstored : call.stored key with
    | false =>
      rw [List.filterMap_cons, valueOf_of_not_stored hstored, List.filter_cons, hstored]
      exact hrest
    | true =>
      obtain ⟨value, hvalue⟩ := Option.isSome_iff_exists.mp (h key List.mem_cons_self hstored)
      rw [List.filterMap_cons, hvalue, List.filter_cons, hstored]
      simp [hvalue, hrest]

namespace Reached

theorem next (h : call.Reached roots n done w) {batch : Batch K V}
    (hlevel : w.current.foldlM call.visit ⟨[], w.values, w.missing, false⟩ = .ok batch)
    (hfull : batch.truncated = false) (depth : Nat) :
    call.Reached roots (n + 1) (done ++ w.current) ⟨(insertNew w.visited batch.next).1,
      (insertNew w.visited batch.next).2, batch.values, batch.missing, depth⟩ := by
  obtain ⟨hwithin, -, hlooked⟩ := level_spec w.current _ hlevel
  obtain ⟨heq, hfound⟩ := hlooked hfull
  have hnext : batch.next = w.current.flatMap call.children := by simp [heq, after]
  rw [insertNew_eq, h.visited, hnext]
  refine ⟨h.level.next, rfl, ?_, ?_, ?_, hwithin h.within⟩
  · simp [heq, after, h.values]
  · simp [heq, after, h.missing]
  · intro key hkey
    rcases List.mem_append.mp hkey with hd | hc
    · exact h.found key hd
    · exact hfound key hc

theorem visitsEachOnce (h : call.Reached roots n done w) (hempty : w.current = []) (truncated : Bool) :
    call.VisitsEachOnce roots ⟨w.values, w.missing, truncated⟩ := by
  have hlevel := h.level
  rw [hempty] at hlevel
  refine ⟨done, hlevel.finish, ?_, h.missing⟩
  rw [h.values]
  exact map_valueOf done h.found

/-- As every level takes keys that were not seen before, the walk ends, and its result is sound. -/
theorem run (left : Nat) (h : call.Reached roots n done w) (hleft : (call.keys roots).length < done.length + left) :
    ∃ result, call.run left w = some result ∧ call.Sound roots result := by
  induction left generalizing n done w with
  | zero =>
    have hlen := h.level.length_le (List.subset_append_left roots _) (call.children_subset roots)
    rw [List.length_append] at hlen
    change done.length + w.current.length ≤ (call.keys roots).length at hlen
    omega
  | succ left ih =>
    rw [Call.run]
    by_cases hempty : w.current = []
    · refine ⟨.ok ⟨w.values, w.missing, false⟩, if_pos hempty, ?_, ?_, ?_, fun _ => ⟨_, rfl⟩⟩
      · rintro _ ⟨⟩
        exact h.within
      · rintro _ ⟨⟩ -
        exact h.visitsEachOnce hempty false
      · rintro _ ⟨⟩ - -
        rfl
    rw [if_neg hempty]
    by_cases hlimit : (reached call.maxDepth w.depth || reached call.maxNodes w.values.length) = true
    · refine ⟨.ok ⟨w.values, w.missing, true⟩, if_pos hlimit, .cut h.within _ ?_⟩
      intro hnodes hdepth
      rw [hnodes, hdepth] at hlimit
      cases hlimit
    rw [if_neg hlimit]
    cases hlevel : w.current.foldlM call.visit ⟨[], w.values, w.missing, false⟩ with
    | error e =>
      refine ⟨.error e, rfl, nofun, nofun, nofun, fun hreadable => ?_⟩
      obtain ⟨batch, hbatch⟩ := level_ok hreadable w.current ⟨[], w.values, w.missing, false⟩
      rw [hlevel] at hbatch
      cases hbatch
    | ok batch =>
      cases hfull : batch.truncated with
      | true =>
        refine ⟨.ok ⟨batch.values, batch.missing, true⟩, if_pos hfull,
          .cut ((level_spec w.current _ hlevel).1 h.within) _ ?_⟩
        intro hnodes _
        rw [level_unlimited hnodes w.current _ hlevel] at hfull
        cases hfull
      | false =>
        have hpos : 0 < w.current.length := List.length_pos_iff.mpr hempty
        have hshort : (call.keys roots).length < (done ++ w.current).length + left := by
          rw [List.length_append]
          omega
        obtain ⟨result, hrun, hsound⟩ := ih (h.next hlevel hfull (bump w.depth)) hshort
        refine ⟨result, ?_, hsound⟩
        simp only [hfull, Bool.false_eq_true, if_false]
        exact hrun

end Reached

/-- Once the fuel is more than the number of keys the map can lead to, the lookup returns the
same result. No more values than the limit are returned, an output that is not truncated has
the values of the stored keys reachable from the roots and the other keys reachable, each once
and in breadth-first order, without limits no output is truncated, and where all can be read
there is an output. -/
theorem recursiveMultiGet_visits_each_once (call : Call K V E) (roots : List K) :
    ∃ result, (∀ fuel, (call.keys roots).length < fuel → call.recursiveMultiGet fuel roots = some result) ∧
      call.Sound roots result := by
  have hstart : call.Reached roots 0 [] ⟨(insertNew [] roots).1, (insertNew [] roots).2, [], [], 0⟩ := by
    rw [insertNew_eq]
    exact ⟨BreadthFirst.Level.start roots call.children, rfl, rfl, rfl, fun key hkey => absurd
      hkey List.not_mem_nil,
      fun limit _ => Nat.zero_le limit⟩
  obtain ⟨result, hrun, hsound⟩ := hstart.run ((call.keys roots).length + 1) (by simp)
  exact ⟨result, fun fuel hfuel => call.run_mono hrun hfuel, hsound⟩

end

end Call
end

end Congruent.RecursiveGet
