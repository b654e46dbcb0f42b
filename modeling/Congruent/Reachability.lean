import Congruent.Event
import Congruent.KeyedMap
import Congruent.Worklist

/-!
# Reachability over a snapshot of the room graph

`LiveReachability` answers whether an event is older than another: a filter on topological
labels first, and a walk back over parent edges where the filter does not decide.
-/

namespace Congruent.Reachability

inductive Reach where
  | yes
  | no
  | unknown
  deriving DecidableEq, Repr

abbrev Parents := AList fun _ : EventId => List EventId

abbrev Topo := AList fun _ : EventId => Nat

/-- The loop over the parents of one event: `none` when it comes to `wanted`. -/
def pushPrevs (wanted : EventId) : List EventId → List EventId → Option (List EventId)
  | [], stack => some stack
  | prev :: prevs, stack => if prev = wanted then none else pushPrevs wanted prevs (prev :: stack)

/-- The walk back from the events of `stack`: `none` when `fuel` pops do not end it. -/
def exactWalk (wanted : EventId) (parents : Parents) :
    (fuel : Nat) → (stack seen : List EventId) → Option Reach
  | 0, _, _ => none
  | _ + 1, [], _ => some .no
  | n + 1, current :: stack, seen =>
    if current ∈ seen then exactWalk wanted parents n stack seen
    else
      match parents.lookup current with
      | none => exactWalk wanted parents n stack (current :: seen)
      | some prevs =>
        match pushPrevs wanted prevs stack with
        | none => some .yes
        | some stack => exactWalk wanted parents n stack (current :: seen)

def exactReachability (fuel : Nat) (older newer : EventId) (parents : Parents) : Option Reach :=
  if older = newer then some .yes else exactWalk older parents fuel [newer] []

structure LiveReachability where
  topo : Topo
  slowPath : EventId → EventId → Option Reach

namespace LiveReachability

def fromSnapshot (fuel : Nat) (topo : Topo) (parents : Parents) : LiveReachability :=
  ⟨topo, fun older newer => exactReachability fuel older newer parents⟩

def reaches (r : LiveReachability) (older newer : EventId) : Option Reach :=
  if older = newer then some .yes
  else
    match r.topo.lookup older, r.topo.lookup newer with
    | none, _ | _, none => some .unknown
    | some olderTopo, some newerTopo =>
      if newerTopo ≤ olderTopo then some .no else r.slowPath older newer

end LiveReachability

/-! ## The walk -/

theorem pushPrevs_eq (wanted : EventId) (prevs stack : List EventId) :
    pushPrevs wanted prevs stack = if wanted ∈ prevs then none else some (prevs.reverse ++ stack) := by
  induction prevs generalizing stack with
  | nil => rfl
  | cons prev prevs ih =>
    rw [pushPrevs, ih]
    by_cases h : prev = wanted
    · simp [h]
    · simp [h, Ne.symm h]

def parentsOf (parents : Parents) (id : EventId) : List EventId := (parents.lookup id).getD []

theorem parentsOf_nil (parents : Parents) (id : EventId) : id ∈ parents.keys ∨ parentsOf parents id = [] := by
  by_cases h : id ∈ parents
  · exact Or.inl h
  · exact Or.inr (by rw [parentsOf, AList.lookup_eq_none.mpr h, Option.getD_none])

theorem mem_of_parentsOf {parents : Parents} {id prev : EventId} (h : prev ∈ parentsOf parents id) :
    id ∈ parents := by
  rcases parentsOf_nil parents id with hid | hid
  · exact hid
  · rw [hid] at h
    cases h

/-- `newer` has `older` among its ancestors, or is it. -/
def Ancestor (parents : Parents) (older newer : EventId) : Prop := Worklist.Reach (parentsOf parents) newer older

theorem exactWalk_step {wanted : EventId} {parents : Parents} {n : Nat} {current : EventId}
    {stack seen : List EventId} (h : current ∉ seen) :
    exactWalk wanted parents (n + 1) (current :: stack) seen =
      if wanted ∈ parentsOf parents current then some .yes
      else exactWalk wanted parents n ((parentsOf parents current).reverse ++ stack) (current :: seen) := by
  rw [exactWalk, if_neg h]
  unfold parentsOf
  cases parents.lookup current with
  | none => rw [Option.getD_none, if_neg List.not_mem_nil, List.reverse_nil, List.nil_append]
  | some prevs =>
    simp only [pushPrevs_eq, Option.getD_some]
    split <;> simp_all

/-- The search behind the walk: the parents are popped in their reverse order. -/
def visited (parents : Parents) (n : Nat) (stack seen : List EventId) : List EventId :=
  Worklist.visitBy (parentsOf parents) (fun prevs stack => prevs.reverse ++ stack) n stack seen

theorem push_perm (prevs stack : List EventId) : (prevs.reverse ++ stack).Perm (prevs ++ stack) :=
  (List.reverse_perm prevs).append_right stack

/-- Given fuel for every edge of the graph, the walk ends, and with `yes` if and only if an
event that the search visits has the wanted one among its parents. -/
theorem exactWalk_eq {wanted : EventId} {parents : Parents} (n : Nat) (stack seen : List EventId)
    (hn : stack.length + Worklist.remaining (parentsOf parents) parents.keys seen < n) :
    exactWalk wanted parents n stack seen =
      some (if ∃ x ∈ visited parents n stack seen, x ∉ seen ∧ wanted ∈ parentsOf parents x then .yes else .no) := by
  induction n generalizing stack seen with
  | zero => omega
  | succ n ih =>
    cases stack with
    | nil =>
      rw [exactWalk, if_neg]
      rintro ⟨x, hx, hnot, -⟩
      exact hnot hx
    | cons current stack =>
      rw [List.length_cons] at hn
      by_cases h : current ∈ seen
      · have hv : visited parents (n + 1) (current :: stack) seen = visited parents n stack seen := by
          simp [visited, Worklist.visitBy, h]
        rw [exactWalk, if_pos h, hv, ih stack seen (by omega)]
      · have hv : visited parents (n + 1) (current :: stack) seen =
            visited parents n ((parentsOf parents current).reverse ++ stack) (current :: seen) := by
          simp [visited, Worklist.visitBy, h]
        have hrem := Worklist.remaining_cons (parentsOf parents) h (parentsOf_nil parents current)
        rw [exactWalk_step h, hv]
        by_cases hw : wanted ∈ parentsOf parents current
        · have hcurrent :
              current ∈ visited parents n ((parentsOf parents current).reverse ++ stack) (current :: seen) :=
            Worklist.seen_subset_visitBy _ n _ _ List.mem_cons_self
          rw [if_pos hw, if_pos ⟨current, hcurrent, h, hw⟩]
        · have hlen : ((parentsOf parents current).reverse ++ stack).length +
              Worklist.remaining (parentsOf parents) parents.keys (current :: seen) < n := by
            rw [List.length_append, List.length_reverse]
            omega
          rw [if_neg hw, ih _ _ hlen]
          -- `current` does not have the wanted event as a parent, so it may count as seen
          have hiff : ∀ x, (x ∉ current :: seen ∧ wanted ∈ parentsOf parents x) ↔
              x ∉ seen ∧ wanted ∈ parentsOf parents x := by
            intro x
            rw [List.mem_cons, not_or]
            refine ⟨fun hx => ⟨hx.1.2, hx.2⟩, fun hx => ⟨⟨fun heq => hw (heq ▸ hx.2), hx.1⟩, hx.2⟩⟩
          simp only [hiff]

/-- The pops that every walk of the graph ends in. -/
def walkSteps (parents : Parents) : Nat := 2 + Worklist.remaining (parentsOf parents) parents.keys []

/-- `yes` if a statement holds, `no` if it does not. -/
def Answers (r : Option Reach) (p : Prop) : Prop := p ∧ r = some .yes ∨ ¬p ∧ r = some .no

theorem exactReachability_answers {parents : Parents} {fuel : Nat} (hfuel : walkSteps parents ≤ fuel)
    (older newer : EventId) :
    Answers (exactReachability fuel older newer parents) (Ancestor parents older newer) := by
  unfold exactReachability
  by_cases heq : older = newer
  · rw [if_pos heq, heq]
    exact Or.inl ⟨.refl, rfl⟩
  · have hsteps : [newer].length + Worklist.remaining (parentsOf parents) parents.keys [] < fuel := by
      unfold walkSteps at hfuel
      rw [List.length_singleton]
      omega
    have hmem : (∃ x ∈ visited parents fuel [newer] [], x ∉ [] ∧ older ∈ parentsOf parents x) ↔
        Ancestor parents older newer := by
      have hvisit := Worklist.mem_visitBy (parentsOf parents) push_perm parents.keys (parentsOf_nil parents)
        (Nat.le_of_lt hsteps)
      constructor
      · rintro ⟨x, hx, -, hprev⟩
        obtain ⟨s, hs, hreach⟩ := (hvisit x).mp hx
        rw [List.mem_singleton.mp hs] at hreach
        exact hreach.tail hprev
      · intro hreach
        rcases Relation.ReflTransGen.cases_tail hreach with hrefl | ⟨x, hx, hprev⟩
        · exact absurd hrefl heq
        · exact ⟨x, (hvisit x).mpr ⟨newer, List.mem_singleton_self _, hx⟩, List.not_mem_nil, hprev⟩
    rw [if_neg heq, exactWalk_eq fuel [newer] [] hsteps]
    by_cases hanc : Ancestor parents older newer
    · rw [if_pos (hmem.mpr hanc)]
      exact Or.inl ⟨hanc, rfl⟩
    · rw [if_neg (hmem.not.mpr hanc)]
      exact Or.inr ⟨hanc, rfl⟩

/-! ## The filter -/

/-- Along every parent edge between labelled events the labels go down. -/
def LinearExtension (topo : Topo) (parents : Parents) : Prop :=
  ∀ child ∈ topo, ∀ parent ∈ topo, parent ∈ parentsOf parents child →
    (topo.lookup parent).any (fun p => (topo.lookup child).any fun c => p < c) = true

def LabelsParents (topo : Topo) (parents : Parents) : Prop := ∀ id ∈ parents, id ∈ topo

theorem label_lt {topo : Topo} {parents : Parents} (hlin : LinearExtension topo parents)
    {child parent : EventId} {c p : Nat} (hc : topo.lookup child = some c) (hp : topo.lookup parent = some p)
    (hedge : parent ∈ parentsOf parents child) : p < c := by
  have hchild : child ∈ topo := AList.lookup_isSome.mp (by rw [hc]; rfl)
  have hparent : parent ∈ topo := AList.lookup_isSome.mp (by rw [hp]; rfl)
  simpa [hc, hp] using hlin child hchild parent hparent hedge

theorem label_lt_of_ancestor {topo : Topo} {parents : Parents} (hlin : LinearExtension topo parents)
    (hlabels : LabelsParents topo parents) {older newer : EventId} (h : Ancestor parents older newer)
    (hne : older ≠ newer) {o n : Nat} (ho : topo.lookup older = some o) (hn : topo.lookup newer = some n) :
    o < n := by
  induction h using Relation.ReflTransGen.head_induction_on generalizing n with
  | refl => exact absurd rfl hne
  | @head x y hxy hy ih =>
    by_cases heq : older = y
    · rw [← heq] at hxy
      exact label_lt hlin hn ho hxy
    · have hmem : y ∈ topo := by
        rcases Relation.ReflTransGen.cases_head hy with hrefl | ⟨z, hz, -⟩
        · exact absurd hrefl.symm heq
        · exact hlabels y (mem_of_parentsOf hz)
      obtain ⟨m, hm⟩ := Option.isSome_iff_exists.mp (AList.lookup_isSome.mpr hmem)
      exact (ih heq hm).trans (label_lt hlin hn hm hxy)

theorem reaches_answers {topo : Topo} {parents : Parents} {fuel : Nat} (hfuel : walkSteps parents ≤ fuel)
    (hlin : LinearExtension topo parents) (hlabels : LabelsParents topo parents) {older newer : EventId}
    (h : older = newer ∨ older ∈ topo ∧ newer ∈ topo) :
    Answers ((LiveReachability.fromSnapshot fuel topo parents).reaches older newer)
      (Ancestor parents older newer) := by
  unfold LiveReachability.reaches LiveReachability.fromSnapshot
  by_cases heq : older = newer
  · rw [if_pos heq, heq]
    exact Or.inl ⟨.refl, rfl⟩
  · obtain ⟨ho, hn⟩ := h.resolve_left heq
    obtain ⟨o, ho⟩ := Option.isSome_iff_exists.mp (AList.lookup_isSome.mpr ho)
    obtain ⟨n, hn⟩ := Option.isSome_iff_exists.mp (AList.lookup_isSome.mpr hn)
    rw [if_neg heq]
    simp only [ho, hn]
    by_cases hle : n ≤ o
    · rw [if_pos hle]
      refine Or.inr ⟨fun hanc => ?_, rfl⟩
      have := label_lt_of_ancestor hlin hlabels hanc heq ho hn
      omega
    · rw [if_neg hle]
      exact exactReachability_answers hfuel older newer

theorem reaches_unknown (r : LiveReachability) {older newer : EventId} (hne : older ≠ newer)
    (h : older ∉ r.topo ∨ newer ∉ r.topo) : r.reaches older newer = some .unknown := by
  unfold LiveReachability.reaches
  rw [if_neg hne]
  rcases h with h | h
  · rw [AList.lookup_eq_none.mpr h]
  · rw [AList.lookup_eq_none.mpr h]
    cases r.topo.lookup older <;> rfl

/-! ## Which direction is answered -/

/-- On every graph the exact search ends with the right answer. Under labels that extend the
parent relation and cover every event with recorded parents, `reaches a b` is `yes` if and only
if `a` is reachable from `b`, for equal or labelled events, and `unknown` for others. -/
theorem reaches_exact (parents : Parents) : ∃ n, ∀ fuel, n ≤ fuel →
    (∀ a b, Answers (exactReachability fuel a b parents) (Ancestor parents a b)) ∧
      ∀ topo, LinearExtension topo parents → LabelsParents topo parents → ∀ a b,
        ((a = b ∨ a ∈ topo ∧ b ∈ topo) →
          Answers ((LiveReachability.fromSnapshot fuel topo parents).reaches a b) (Ancestor parents a b)) ∧
        (a ≠ b → (a ∉ topo ∨ b ∉ topo) →
          (LiveReachability.fromSnapshot fuel topo parents).reaches a b = some .unknown) := by
  refine ⟨walkSteps parents, fun fuel hfuel => ⟨exactReachability_answers hfuel, ?_⟩⟩
  intro topo hlin hlabels a b
  exact ⟨reaches_answers hfuel hlin hlabels, fun hne h => reaches_unknown _ hne h⟩

def pairParents : Parents := (AList.insert "$a" [] ∅).insert "$b" ["$a"]

def pairTopo : Topo := (AList.insert "$a" 1 ∅).insert "$b" 2

theorem pair_linear : LinearExtension pairTopo pairParents := by
  unfold LinearExtension
  decide

theorem reaches_exact_pair : LinearExtension pairTopo pairParents ∧ ∃ n, ∀ fuel, n ≤ fuel →
    Answers ((LiveReachability.fromSnapshot fuel pairTopo pairParents).reaches "$a" "$b")
      (Ancestor pairParents "$a" "$b") := by
  refine ⟨pair_linear, ?_⟩
  obtain ⟨n, h⟩ := reaches_exact pairParents
  refine ⟨n, fun fuel hfuel => ?_⟩
  exact ((h fuel hfuel).2 pairTopo pair_linear (by unfold LabelsParents; decide) "$a" "$b").1
    (Or.inr ⟨by decide, by decide⟩)

/-- A chain whose middle event has parents but no label. -/
def gapParents : Parents := ((AList.insert "$a" [] ∅).insert "$m" ["$a"]).insert "$b" ["$m"]

def gapTopo : Topo := (AList.insert "$a" 2 ∅).insert "$b" 1

/-- `reaches` is `yes` towards the newer event, where nothing is reachable from the older one.
In the other direction it may be `no` although there is a path, through an event without label. -/
theorem reaches_backwards :
    (LinearExtension pairTopo pairParents ∧
      (LiveReachability.fromSnapshot 9 pairTopo pairParents).reaches "$a" "$b" = some .yes ∧
      ¬Worklist.Reach (parentsOf pairParents) "$a" "$b") ∧
    (LinearExtension gapTopo gapParents ∧
      (LiveReachability.fromSnapshot 9 gapTopo gapParents).reaches "$a" "$b" = some .no ∧
      Worklist.Reach (parentsOf gapParents) "$b" "$a") ∧
    (LinearExtension ∅ pairParents ∧
      (LiveReachability.fromSnapshot 9 ∅ pairParents).reaches "$a" "$b" = some .unknown ∧
      Worklist.Reach (parentsOf pairParents) "$b" "$a") := by
  refine ⟨⟨pair_linear, by decide, fun h => ?_⟩, ⟨?_, by decide, ?_⟩, ⟨?_, by decide, ?_⟩⟩
  · rcases Relation.ReflTransGen.cases_head h with heq | ⟨x, hx, -⟩
    · exact absurd heq (by decide)
    · exact absurd hx (by simp [parentsOf, show pairParents.lookup "$a" = some [] by decide])
  · unfold LinearExtension
    decide
  · exact .tail (.single (show "$m" ∈ parentsOf gapParents "$b" by decide))
      (show "$a" ∈ parentsOf gapParents "$m" by decide)
  · unfold LinearExtension
    decide
  · exact .single (show "$a" ∈ parentsOf pairParents "$b" by decide)

end Congruent.Reachability
