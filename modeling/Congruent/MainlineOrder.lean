import Mathlib.Order.WithBot
import Congruent.KeyedMap
import Congruent.Mainline

/-!
# The order of the mainline sort

Where auth events are acyclic the sort is compared with the plain definition: an
event is placed by the closest power-levels event of the mainline. The sort takes
a power-levels event off the mainline for one without a mainline event, unless it
has passed it on the way from another event.
-/

namespace Congruent

section
variable (store : EventStore) (powerLevels : Option EventId)

/-! ## The plain definition -/

def AcyclicAuth : Prop := ∀ x, ¬ InChain store x x

def powerChain (start : Option EventId) : List EventId :=
  Descent.chain (nextPowerLevels store) (store.events.length + 1) start

def mainline : List EventId := powerChain store (powerLevels.filter fun id => (store.fetch id).isSome)

def positionIn (line : List EventId) (id : EventId) : Option Nat := if id ∈ line then some (line.idxOf id) else none

/-- The power-levels event the chain of an event starts with: itself, or the
first one it cites. -/
def chainStart (ev : Pdu) : Option EventId :=
  if isTypeAndKey ev .roomPowerLevels "" then some ev.eventId
  else (firstPowerLevels store ev.authEvents).map (·.eventId)

def closestFrom (start : Option EventId) : Option Nat :=
  (powerChain store start).findSome? (positionIn (mainline store powerLevels))

def referenceKey (id : EventId) : Option Nat × Nat × EventId :=
  match store.fetch id with
  | some ev => (closestFrom store powerLevels (chainStart store ev), ev.originServerTs, id)
  | none => (none, 0, id)

/-- The sort answers the same list for every order of the events, and it is in
the order of the reference keys. -/
def SortsRight (l : List EventId) : Prop :=
  ∃ sorted : List EventId, sorted.Perm l ∧
    sorted.Pairwise (fun x y =>
      mainlineLe (referenceKey store powerLevels x) (referenceKey store powerLevels y) = true) ∧
    ∀ l' : List EventId, l'.Perm l → mainlineSort store l' powerLevels = .ok sorted

/-! ## What the sort may do instead -/

def Stray (id : EventId) : Prop :=
  ∃ ev, store.fetch id = some ev ∧ isTypeAndKey ev .roomPowerLevels "" = true ∧ id ∉ mainline store powerLevels ∧
    closestFrom store powerLevels (some id) ≠ none

def PassedBy (l : List EventId) (id : EventId) : Prop :=
  ∃ z ∈ l, ∃ ev, store.fetch z = some ev ∧ isTypeAndKey ev .roomPowerLevels "" = false ∧
    id ∈ powerChain store (chainStart store ev)

def strayKey (id : EventId) : Option Nat × Nat × EventId := (none, (referenceKey store powerLevels id).2)

def MayKey (l : List EventId) (id : EventId) (key : Option Nat × Nat × EventId) : Prop :=
  (key = strayKey store powerLevels id ∧ Stray store powerLevels id) ∨
    (key = referenceKey store powerLevels id ∧ (Stray store powerLevels id → PassedBy store l id))

/-- A stray event compares with every other event of the list, by each key that
one may have, as their reference keys do. -/
def StraysInPlace (l : List EventId) : Prop :=
  ∀ x ∈ l, Stray store powerLevels x → ∀ y ∈ l, y ≠ x → ∀ key, MayKey store powerLevels l y key →
    mainlineLe (strayKey store powerLevels x) key =
      mainlineLe (referenceKey store powerLevels x) (referenceKey store powerLevels y)

end

/-! ## The comparison -/

/-- No mainline event first, then the deepest. -/
def depthRank : Option Nat → WithBot ℕᵒᵈ
  | none => ⊥
  | some depth => (OrderDual.toDual depth : ℕᵒᵈ)

/-- The sort key as an element of a linear order. -/
def mainlineRank (key : Option Nat × Nat × EventId) : Lex (WithBot ℕᵒᵈ × Lex (ℕ × EventId)) :=
  toLex (depthRank key.1, toLex key.2)

theorem depthRank_injective : Function.Injective depthRank
  | none, none, _ => rfl
  | none, some _, h => absurd h.symm WithBot.coe_ne_bot
  | some _, none, h => absurd h WithBot.coe_ne_bot
  | some _, some _, h => congrArg some (OrderDual.toDual_inj.mp (WithBot.coe_inj.mp h))

theorem ageLe_iff (a b : Nat × EventId) : ageLe a b = true ↔ toLex a ≤ toLex b := by
  simp [ageLe, Prod.Lex.toLex_le_toLex]

theorem mainlineLe_iff (a b : Option Nat × Nat × EventId) :
    mainlineLe a b = true ↔ mainlineRank a ≤ mainlineRank b := by
  obtain ⟨da, a⟩ := a
  obtain ⟨db, b⟩ := b
  unfold mainlineLe mainlineRank
  rw [Prod.Lex.toLex_le_toLex]
  cases da with
  | none =>
    cases db with
    | none => simp [depthRank, ageLe_iff]
    | some e => simp [depthRank]
  | some d =>
    cases db with
    | none => simp [depthRank]
    | some e =>
      simp only [depthRank, Bool.or_eq_true, Bool.and_eq_true, decide_eq_true_eq, ageLe_iff, WithBot.coe_lt_coe,
        OrderDual.toDual_lt_toDual, WithBot.coe_inj, OrderDual.toDual_inj, @eq_comm _ e d]

theorem mainlineRank_injective : Function.Injective mainlineRank := by
  rintro ⟨da, a⟩ ⟨db, b⟩ h
  obtain ⟨hd, ha⟩ := Prod.ext_iff.mp (toLex_inj.mp h)
  exact Prod.ext (depthRank_injective hd) (toLex_inj.mp ha)

/-! ## Chains of power-levels events -/

section
variable {store : EventStore} {powerLevels : Option EventId} (hac : AcyclicAuth store)

theorem nextPowerLevels_cited {a b : EventId} (h : nextPowerLevels store a = some b) : b ∈
    authEventsOf store a := by
  obtain ⟨ev, hf, hb⟩ := Option.bind_eq_some_iff.mp h
  obtain ⟨pl, hpl, rfl⟩ := Option.map_eq_some_iff.mp hb
  simp only [authEventsOf, hf, Option.map_some, Option.getD_some]
  exact (firstPowerLevels_own hpl).1

theorem nextPowerLevels_fetch {a b : EventId} (h : nextPowerLevels store a = some b) :
    (store.fetch b).isSome = true := by
  obtain ⟨ev, -, hb⟩ := Option.bind_eq_some_iff.mp h
  obtain ⟨pl, hpl, rfl⟩ := Option.map_eq_some_iff.mp hb
  rw [(firstPowerLevels_own hpl).2.1]
  rfl

include hac

theorem not_cycles (start : Option EventId) : ¬ Descent.Cycles (nextPowerLevels store) start := by
  rintro ⟨-, -, b, -, h⟩
  exact hac b (Relation.TransGen.mono (fun _ _ h => nextPowerLevels_cited h) b b h)

theorem climb_acyclic (start : Option EventId) :
    Descent.climb (nextPowerLevels store) (store.events.length + 1) start = none := by
  have h := Descent.climb_of_ends nextPowerLevels_mem
    ((Descent.ends_iff nextPowerLevels_mem).mpr (not_cycles hac start))
  rwa [List.length_map] at h

theorem powerChain_some (id : EventId) :
    powerChain store (some id) = id :: powerChain store (nextPowerLevels store id) :=
  Descent.chain_some (climb_acyclic hac _)

theorem powerChain_nodup (start : Option EventId) : (powerChain store start).Nodup :=
  Descent.chain_nodup (climb_acyclic hac) start

theorem powerChain_tail {start : Option EventId} {id : EventId} (h : id ∈ powerChain store start) :
    ∃ front, powerChain store start = front ++ powerChain store (some id) :=
  Descent.chain_tail (climb_acyclic hac) start h

theorem powerChain_mainline {id x : EventId} (h : id ∈ mainline store powerLevels)
    (hx : x ∈ powerChain store (some id)) : x ∈ mainline store powerLevels := by
  obtain ⟨front, hf⟩ := powerChain_tail hac h
  unfold mainline
  rw [hf]
  exact List.mem_append_right _ hx

theorem closestFrom_some (id : EventId) :
    closestFrom store powerLevels (some id) =
      if id ∈ mainline store powerLevels then some ((mainline store powerLevels).idxOf id)
      else closestFrom store powerLevels (nextPowerLevels store id) := by
  unfold closestFrom
  rw [powerChain_some hac, List.findSome?_cons]
  unfold positionIn
  by_cases h : id ∈ mainline store powerLevels
  · simp [h]
  · simp [h]

theorem closestFrom_none {start : Option EventId} (h : closestFrom store powerLevels start = none) {x : EventId}
    (hx : x ∈ powerChain store start) : closestFrom store powerLevels (some x) = none := by
  obtain ⟨front, hf⟩ := powerChain_tail hac hx
  unfold closestFrom at h ⊢
  rw [hf, List.findSome?_append, Option.or_eq_none_iff] at h
  exact h.2

end

/-! ## The mainline as the sort finds it -/

section
variable {store : EventStore} {powerLevels : Option EventId} (hac : AcyclicAuth store)

theorem powerChain_none : powerChain store none = [] := rfl

theorem filter_nextPowerLevels (id : EventId) :
    (nextPowerLevels store id).filter (fun id => (store.fetch id).isSome) = nextPowerLevels store id := by
  cases h : nextPowerLevels store id with
  | none => rfl
  | some b => simp [nextPowerLevels_fetch h]

include hac

theorem mainlineWalk_lookup : ∀ {n : Nat} {start : Option EventId} {position : Nat}
    {depths table : AList fun _ : EventId => Nat}, mainlineWalk store n start position depths = some table →
    ∀ x, table.lookup x =
      if x ∈ mainline store start then some (position + (mainline store start).idxOf x) else depths.lookup x
  | 0, _, _, _, _, h, _ => by cases h
  | n + 1, none, _, _, _, h, x => by
    cases h
    simp [mainline, powerChain_none]
  | n + 1, some p, position, depths, table, h, x => by
    unfold mainlineWalk at h
    cases hf : store.fetch p with
    | none =>
      rw [hf] at h
      cases h
      simp [mainline, Option.filter_some, hf, powerChain_none]
    | some ev =>
      simp only [hf] at h
      rw [← nextPowerLevels_eq hf] at h
      have hline : mainline store (some p) = p :: mainline store (nextPowerLevels store p) := by
        unfold mainline
        rw [filter_nextPowerLevels, Option.filter_some, hf, Option.isSome_some, if_pos rfl, powerChain_some hac]
      have hp : p ∉ mainline store (nextPowerLevels store p) := by
        have := powerChain_nodup hac ((some p).filter fun id => (store.fetch id).isSome)
        rw [← mainline, hline] at this
        exact (List.nodup_cons.mp this).1
      rw [mainlineWalk_lookup h x, hline, store.eventId_of_fetch hf]
      by_cases hx : x = p
      · subst hx
        simp [hp]
      · rw [AList.lookup_insert_ne hx, List.idxOf_cons_ne _ (Ne.symm hx)]
        simp only [List.mem_cons, hx, false_or, Nat.succ_eq_add_one]
        congr 2
        omega

variable (powerLevels) in
theorem mainlineWalk_positions : ∃ table, mainlineWalk store (store.events.length + 2)
    powerLevels 0 ∅ = some table ∧
    ∀ x, table.lookup x = positionIn (mainline store powerLevels) x := by
  obtain ⟨table, ht⟩ := Option.isSome_iff_exists.mp (mainlineWalk_ends (not_cycles hac powerLevels))
  refine ⟨table, ht, fun x => ?_⟩
  rw [mainlineWalk_lookup hac ht x, Nat.zero_add, AList.lookup_empty]
  rfl

end

/-! ## The table with the events passed -/

/-- The table answers for the mainline and for the events passed, and for no
other. With an event all those behind it have been passed. -/
structure TableFor (store : EventStore) (powerLevels : Option EventId) (passed : EventId → Prop)
    (depths : AList fun _ : EventId => Nat) : Prop where
  known : ∀ x, x ∈ mainline store powerLevels ∨ passed x → depths.lookup x = closestFrom store powerLevels (some x)
  unknown : ∀ x, x ∉ mainline store powerLevels → ¬ passed x → depths.lookup x = none
  closed : ∀ x, passed x → ∀ y ∈ powerChain store (some x), passed y

section
variable {store : EventStore} {powerLevels : Option EventId} {passed : EventId → Prop}
  {depths : AList fun _ : EventId => Nat} (hac : AcyclicAuth store)
include hac

theorem TableFor.start (h : ∀ x, depths.lookup x = positionIn (mainline store powerLevels) x) :
    TableFor store powerLevels (fun _ => False) depths := by
  refine ⟨fun x hx => ?_, fun x hx _ => ?_, fun x hx => hx.elim⟩
  · have hx := hx.resolve_right id
    rw [h, closestFrom_some hac, if_pos hx]
    exact if_pos hx
  · rw [h]
    exact if_neg hx

variable (hT : TableFor store powerLevels passed depths)
include hT

/-- The walk from a power-levels event finds its closest mainline event. It stops
at an event of the table, or at the end of the chain. -/
theorem walkToMainline_spec (start : Option EventId) : ∀ (pl : Option Pdu) (fuel : Nat) (path : List EventId),
    pl.map (·.eventId) = start → (∀ ev ∈ pl, store.fetch ev.eventId = some ev) →
    (powerChain store start).length < fuel → (∀ x ∈ powerChain store start, x ∉ path) →
    ∃ front rest, powerChain store start = front ++ rest ∧
      walkToMainline store depths fuel pl path = (closestFrom store powerLevels start, path ++ front) ∧
      (∀ x ∈ front, closestFrom store powerLevels (some x) = closestFrom store powerLevels start) ∧
      (closestFrom store powerLevels start ≠ none → ∀ x ∈ rest, x ∈ mainline store powerLevels ∨ passed x) := by
  induction start using Descent.chain_induction (climb_acyclic hac) with
  | hnil =>
    intro pl fuel path hpl _ hfuel _
    cases Option.map_eq_none_iff.mp hpl
    obtain ⟨n, rfl⟩ := Nat.exists_eq_succ_of_ne_zero (Nat.ne_of_gt (Nat.zero_lt_of_lt hfuel))
    exact ⟨[], [], rfl, by rw [List.append_nil]; rfl, by simp, by simp⟩
  | hcons a ih =>
    intro pl fuel path hpl hfetch hfuel hpath
    obtain ⟨ev, rfl, rfl⟩ := Option.map_eq_some_iff.mp hpl
    have hf := hfetch ev rfl
    obtain ⟨n, rfl⟩ := Nat.exists_eq_succ_of_ne_zero (Nat.ne_of_gt (Nat.zero_lt_of_lt hfuel))
    have hnd := powerChain_nodup hac (some ev.eventId)
    have hc := powerChain_some hac ev.eventId
    rw [hc] at hfuel hpath hnd
    unfold walkToMainline
    rw [if_neg (hpath _ List.mem_cons_self)]
    cases hl : depths.lookup ev.eventId with
    | some depth =>
      have hk : ev.eventId ∈ mainline store powerLevels ∨ passed ev.eventId := by
        by_contra hk
        rw [not_or] at hk
        rw [hT.unknown _ hk.1 hk.2] at hl
        cases hl
      have hd := hT.known _ hk
      rw [hl] at hd
      refine ⟨[ev.eventId], _, by rw [hc, List.singleton_append], by simp [← hd], by simp, fun _ x hx => ?_⟩
      have hx : x ∈ powerChain store (some ev.eventId) := by rw [hc]; exact List.mem_cons_of_mem _ hx
      rcases hk with hk | hk
      · exact Or.inl (powerChain_mainline hac hk hx)
      · exact Or.inr (hT.closed _ hk x hx)
    | none =>
      have hline : ev.eventId ∉ mainline store powerLevels := by
        intro hm
        have := hT.known _ (Or.inl hm)
        rw [hl, closestFrom_some hac, if_pos hm] at this
        cases this
      have hd : closestFrom store powerLevels (some ev.eventId) =
          closestFrom store powerLevels (nextPowerLevels store ev.eventId) := by
        rw [closestFrom_some hac, if_neg hline]
      obtain ⟨front, rest, hfr, hw, hfront, hrest⟩ := ih (firstPowerLevels store ev.authEvents) n
        (path ++ [ev.eventId])
        (nextPowerLevels_eq hf).symm (fun pl hpl => (firstPowerLevels_own hpl).2.1)
        (by rw [List.length_cons] at hfuel; omega) fun x hx => by
          rw [List.mem_append, List.mem_singleton, not_or]
          refine ⟨hpath x (List.mem_cons_of_mem _ hx), ?_⟩
          rintro rfl
          exact (List.nodup_cons.mp hnd).1 hx
      refine ⟨ev.eventId :: front, rest, by rw [hc, hfr, List.cons_append], ?_, ?_, ?_⟩
      · simp only [hw, hd, List.append_assoc, List.singleton_append]
      · intro x hx
        rcases List.mem_cons.mp hx with rfl | hx
        · rfl
        · rw [hfront x hx, hd]
      · rw [hd]
        exact hrest

omit hT in
theorem powerChain_length {start : Option EventId} (h : ∀ id ∈ start, (store.fetch id).isSome = true) :
    (powerChain store start).length < store.events.length + 1 := by
  have hs : powerChain store start ⊆ store.events.map (·.eventId) := by
    intro x hx
    have hx : (store.fetch x).isSome = true := by
      cases start with
      | none => cases hx
      | some id =>
        rcases Relation.ReflTransGen.cases_tail (Descent.reach_of_mem_chain _ hx) with rfl | ⟨b, -, hb⟩
        · exact h x rfl
        · exact nextPowerLevels_fetch hb
    obtain ⟨ev, hev⟩ := Option.isSome_iff_exists.mp hx
    exact List.mem_map.mpr ⟨ev, store.mem_of_fetch hev, store.eventId_of_fetch hev⟩
  have := (List.subperm_of_subset (powerChain_nodup hac start) hs).length_le
  rw [List.length_map] at this
  omega

omit hac hT in
theorem eventDepth_powerLevels {ev : Pdu} (hpl : isTypeAndKey ev .roomPowerLevels "" = true) :
    eventDepth store depths ev = (depths.lookup ev.eventId, depths) := if_pos hpl

theorem TableFor.closed_chain (start : Option EventId) (x : EventId)
    (hx : passed x ∨ x ∈ powerChain store start) :
    ∀ y ∈ powerChain store (some x), passed y ∨ y ∈ powerChain store start := by
  intro y hy
  rcases hx with hx | hx
  · exact Or.inl (hT.closed x hx y hy)
  · obtain ⟨l, hl⟩ := powerChain_tail hac hx
    rw [hl]
    exact Or.inr (List.mem_append_right _ hy)

theorem TableFor.pass {start : Option EventId} (hd : closestFrom store powerLevels start = none) :
    TableFor store powerLevels (fun x => passed x ∨ x ∈ powerChain store start) depths := by
  refine ⟨fun x hx => ?_, fun x hm hp => hT.unknown x hm fun hx => hp (Or.inl hx), hT.closed_chain hac start⟩
  by_cases hk : x ∈ mainline store powerLevels ∨ passed x
  · exact hT.known x hk
  · rw [not_or] at hk
    rw [hT.unknown x hk.1 hk.2, closestFrom_none hac hd]
    exact (hx.resolve_left hk.1).resolve_left hk.2

theorem TableFor.write {start : Option EventId} {front rest : List EventId} {depth : Nat}
    (hfr : powerChain store start = front ++ rest)
    (hfront : ∀ x ∈ front, closestFrom store powerLevels (some x) = some depth)
    (hrest : ∀ x ∈ rest, x ∈ mainline store powerLevels ∨ passed x) :
    TableFor store powerLevels (fun x => passed x ∨ x ∈ powerChain store start)
      (front.foldl (fun depths id => depths.insert id depth) depths) := by
  have hin : ∀ x ∈ front, (front.foldl (fun depths id => depths.insert id depth) depths).lookup x = some depth := by
    intro x hx
    have hnd := powerChain_nodup hac start
    rw [hfr] at hnd
    refine @AList.lookup_foldl_insert _ _ _ _ front (fun id => id) (fun _ => depth) x _ ?_ hx
    rw [List.map_id']
    exact (List.nodup_append.mp hnd).1
  have hout : ∀ x, x ∉ front →
      (front.foldl (fun depths id => depths.insert id depth) depths).lookup x = depths.lookup x := by
    intro x hx
    refine AList.lookup_foldl_insert_of_ne fun y hy he => hx ?_
    rwa [← he]
  refine ⟨fun x hx => ?_, fun x hm hp => ?_, hT.closed_chain hac start⟩
  · by_cases hf : x ∈ front
    · rw [hin x hf, hfront x hf]
    · rw [hout x hf]
      refine hT.known x ?_
      rcases hx with hx | hx | hx
      · exact Or.inl hx
      · exact Or.inr hx
      · rw [hfr] at hx
        exact hrest x ((List.mem_append.mp hx).resolve_left hf)
  · rw [not_or] at hp
    rw [hout x fun hx => hp.2 (by rw [hfr]; exact List.mem_append_left _ hx)]
    exact hT.unknown x hm hp.1

theorem eventDepth_spec {ev : Pdu} (hpl : isTypeAndKey ev .roomPowerLevels "" = false) :
    (eventDepth store depths ev).1 = closestFrom store powerLevels (chainStart store ev) ∧
      TableFor store powerLevels (fun x => passed x ∨ x ∈ powerChain store (chainStart store ev))
        (eventDepth store depths ev).2 := by
  have hstart : chainStart store ev = (firstPowerLevels store ev.authEvents).map (·.eventId) := by
    simp [chainStart, hpl]
  obtain ⟨front, rest, hfr, hw, hfront, hrest⟩ := walkToMainline_spec hac hT (chainStart store ev)
    (firstPowerLevels store ev.authEvents) (store.events.length + 1) [] hstart.symm
    (fun pl hpl => (firstPowerLevels_own hpl).2.1)
    (powerChain_length hac fun id hid => by
      rw [hstart] at hid
      obtain ⟨pl, hpl, rfl⟩ := Option.map_eq_some_iff.mp hid
      rw [(firstPowerLevels_own hpl).2.1]
      rfl) (fun x _ => List.not_mem_nil)
  unfold eventDepth
  rw [hpl, if_neg Bool.false_ne_true, hw, List.nil_append]
  cases hd : closestFrom store powerLevels (chainStart store ev) with
  | none => exact ⟨rfl, hT.pass hac hd⟩
  | some depth =>
    rw [hd] at hfront
    exact ⟨rfl, hT.write hac hfr hfront (hrest (by rw [hd]; simp))⟩

end

end Congruent
