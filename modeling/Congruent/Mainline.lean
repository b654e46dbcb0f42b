import Congruent.AuthDiff
import Congruent.Descent

/-!
# The loops of the mainline sort

`mainline_sort` first walks the power-levels events behind the resolved one, and
then from each event to that mainline. The second walk stops at an event it has
visited; the first does not.
-/

namespace Congruent

section
variable (store : EventStore)

def nextPowerLevels (id : EventId) : Option EventId :=
  (store.fetch id).bind fun ev => (firstPowerLevels store ev.authEvents).map (·.eventId)

/-! ## The loops, turn by turn -/

/-- `walkToMainline` in some turns, `none` when the loop goes on. -/
def walkTurns (depths : AList fun _ : EventId => Nat) : (turns : Nat) → Option Pdu → List EventId →
    Option (Option Nat × List EventId)
  | 0, _, _ => none
  | _ + 1, none, path => some (none, path)
  | turns + 1, some pl, path =>
    if pl.eventId ∈ path then some (none, path)
    else
      let path := path ++ [pl.eventId]
      match depths.lookup pl.eventId with
      | some depth => some (some depth, path)
      | none => walkTurns depths turns (firstPowerLevels store pl.authEvents) path

def depthTurns (turns : Nat) (depths : AList fun _ : EventId => Nat) (ev : Pdu) :
    Option (Option Nat × AList fun _ : EventId => Nat) :=
  if isTypeAndKey ev .roomPowerLevels "" then some (depths.lookup ev.eventId, depths)
  else (walkTurns store depths turns (firstPowerLevels store ev.authEvents) []).map fun
    | (some depth, path) => (some depth, path.foldl (fun depths id => depths.insert id depth) depths)
    | (none, _) => (none, depths)

def keysTurns (turns : Nat) : List EventId → (AList fun _ : EventId => Nat) →
    Option (List (Option Nat × Nat × EventId))
  | [], _ => some []
  | id :: ids, depths =>
    match store.fetch id with
    | none => keysTurns turns ids depths
    | some ev => do
      let (depth, depths) ← depthTurns store turns depths ev
      some ((depth, ev.originServerTs, id) :: (← keysTurns turns ids depths))

/-- `mainline_sort` where no loop makes more than some turns. -/
def mainlineSortTurns (turns : Nat) (toSort : List EventId) (powerLevels : Option EventId) :
    Option (List EventId) :=
  if toSort = [] then some []
  else do
    let depths ← mainlineWalk store turns powerLevels 0 ∅
    let keys ← keysTurns store turns toSort depths
    some (dedupByKey id ((keys.insertionSort fun a b => mainlineLe a b).map (·.2.2)))

end

/-! ## The walk behind the resolved power levels -/

section
variable {store : EventStore}

theorem firstPowerLevels_own {aids : List EventId} {pl : Pdu} (h : firstPowerLevels store aids = some pl) :
    pl.eventId ∈ aids ∧ store.fetch pl.eventId = some pl ∧ isTypeAndKey pl .roomPowerLevels "" = true := by
  obtain ⟨aid, haid, hf, hpl⟩ := firstPowerLevels_some h
  rw [store.eventId_of_fetch hf]
  exact ⟨haid, hf, hpl⟩

theorem nextPowerLevels_eq {id : EventId} {ev : Pdu} (h : store.fetch id = some ev) :
    nextPowerLevels store id = (firstPowerLevels store ev.authEvents).map (·.eventId) := by
  simp [nextPowerLevels, h]

theorem nextPowerLevels_mem (a b : EventId) (h : nextPowerLevels store a = some b) :
    a ∈ store.events.map (·.eventId) := by
  obtain ⟨ev, hf, -⟩ := Option.bind_eq_some_iff.mp h
  exact List.mem_map.mpr ⟨ev, store.mem_of_fetch hf, store.eventId_of_fetch hf⟩

theorem mainlineWalk_of_climb : ∀ {n : Nat} {pl : Option EventId} {position : Nat}
    {depths : AList fun _ : EventId => Nat}, Descent.climb (nextPowerLevels store) n pl = none →
    (mainlineWalk store (n + 1) pl position depths).isSome = true
  | n, none, _, _, _ => rfl
  | 0, some p, _, _, h => by cases h
  | n + 1, some p, position, depths, h => by
    unfold mainlineWalk
    cases hf : store.fetch p with
    | none => rfl
    | some ev =>
      change Descent.climb _ n (nextPowerLevels store p) = none at h
      rw [nextPowerLevels_eq hf] at h
      exact mainlineWalk_of_climb h

theorem climb_of_mainlineWalk : ∀ {n : Nat} {pl : Option EventId} {position : Nat}
    {depths : AList fun _ : EventId => Nat}, (mainlineWalk store n pl position depths).isSome = true →
    Descent.climb (nextPowerLevels store) n pl = none
  | 0, _, _, _, h => by cases h
  | n + 1, none, _, _, _ => Descent.climb_none _
  | n + 1, some p, position, depths, h => by
    change Descent.climb _ n (nextPowerLevels store p) = none
    unfold mainlineWalk at h
    cases hf : store.fetch p with
    | none => simp [nextPowerLevels, hf, Descent.climb_none]
    | some ev =>
      rw [hf] at h
      rw [nextPowerLevels_eq hf]
      exact climb_of_mainlineWalk h

/-- The walk ends when it does not come back to an event, and then within one
turn for each event of the store. -/
theorem mainlineWalk_ends {pl : Option EventId} (h : ¬ Descent.Cycles (nextPowerLevels store) pl) :
    (mainlineWalk store (store.events.length + 2) pl 0 ∅).isSome = true := by
  have hc := Descent.climb_of_ends nextPowerLevels_mem ((Descent.ends_iff nextPowerLevels_mem).mpr h)
  rw [List.length_map] at hc
  exact mainlineWalk_of_climb hc

theorem mainlineWalk_loops {turns : Nat} {pl : Option EventId} (h : Descent.Cycles (nextPowerLevels store) pl) :
    mainlineWalk store turns pl 0 ∅ = none := by
  cases hw : mainlineWalk store turns pl 0 ∅ with
  | none => rfl
  | some depths => exact absurd ⟨turns, climb_of_mainlineWalk (by rw [hw]; rfl)⟩ h.not_ends

/-! ## The walks to the mainline -/

theorem walkTurns_eq {depths : AList fun _ : EventId => Nat} : ∀ {turns : Nat} {pl : Option Pdu}
    {path : List EventId} {r : Option Nat × List EventId}, walkTurns store depths turns pl path = some r →
    ∀ more, walkToMainline store depths (turns + more) pl path = r
  | 0, _, _, _, h, _ => by cases h
  | turns + 1, none, path, r, h, more => by
    cases h
    rw [Nat.succ_add]
    rfl
  | turns + 1, some pl, path, r, h, more => by
    unfold walkTurns at h
    rw [Nat.succ_add]
    unfold walkToMainline
    by_cases hv : pl.eventId ∈ path
    · rw [if_pos hv] at h ⊢
      exact Option.some.inj h
    · rw [if_neg hv] at h ⊢
      cases hl : depths.lookup pl.eventId with
      | some depth => simpa [hl] using h
      | none =>
        simp only [hl] at h ⊢
        exact walkTurns_eq h more

theorem walkTurns_ends {depths : AList fun _ : EventId => Nat} : ∀ {turns : Nat} {pl : Option Pdu}
    {path : List EventId}, path.Nodup → path ⊆ store.events.map (·.eventId) →
    (∀ ev ∈ pl, ev.eventId ∈ store.events.map (·.eventId)) → store.events.length + 1 ≤ turns + path.length →
    (walkTurns store depths turns pl path).isSome = true
  | 0, pl, path, hnd, hs, _, hn => by
    have := (List.subperm_of_subset hnd hs).length_le
    rw [List.length_map] at this
    omega
  | turns + 1, none, _, _, _, _, _ => rfl
  | turns + 1, some pl, path, hnd, hs, hpl, hn => by
    unfold walkTurns
    by_cases hv : pl.eventId ∈ path
    · rw [if_pos hv]; rfl
    · rw [if_neg hv]
      cases hl : depths.lookup pl.eventId with
      | some depth => rfl
      | none =>
        refine walkTurns_ends ?_ ?_ (fun ev hev => ?_) ?_
        · exact hnd.append (List.nodup_singleton _) (by simpa using hv)
        · exact List.append_subset.mpr ⟨hs, by simpa using hpl pl rfl⟩
        · exact List.mem_map_of_mem (store.mem_of_fetch (firstPowerLevels_own hev).2.1)
        · rw [List.length_append, List.length_singleton]
          omega

theorem depthTurns_eq (depths : AList fun _ : EventId => Nat) (ev : Pdu) {turns : Nat}
    (ht : store.events.length + 1 ≤ turns) :
    depthTurns store turns depths ev = some (eventDepth store depths ev) := by
  unfold depthTurns eventDepth
  by_cases hpl : isTypeAndKey ev .roomPowerLevels "" = true
  · rw [if_pos hpl, if_pos hpl]
  · rw [if_neg hpl, if_neg hpl]
    have hends : ∀ turns, store.events.length + 1 ≤ turns →
        ∃ r, walkTurns store depths turns (firstPowerLevels store ev.authEvents) [] = some r := fun turns ht =>
      Option.isSome_iff_exists.mp <| walkTurns_ends List.nodup_nil (List.nil_subset _)
        (fun pl hpl => List.mem_map_of_mem (store.mem_of_fetch (firstPowerLevels_own hpl).2.1)) ht
    obtain ⟨r, hr⟩ := hends turns ht
    obtain ⟨r', hr'⟩ := hends _ (Nat.le_refl _)
    -- the turns left over change nothing
    have hrr : r = r' := by
      rw [← walkTurns_eq hr 0, ← walkTurns_eq hr' (turns - (store.events.length + 1))]
      congr 1
      omega
    have hw := walkTurns_eq hr' 0
    rw [Nat.add_zero] at hw
    rw [hr, hw, hrr]
    obtain ⟨depth, path⟩ := r'
    cases depth <;> rfl

theorem keysTurns_eq {turns : Nat} (ht : store.events.length + 1 ≤ turns) : ∀ (ids : List EventId)
    (depths : AList fun _ : EventId => Nat), keysTurns store turns ids depths = some (mainlineKeys store ids depths)
  | [], _ => rfl
  | id :: ids, depths => by
    unfold keysTurns mainlineKeys
    cases hf : store.fetch id with
    | none => exact keysTurns_eq ht ids depths
    | some ev =>
      simp only [depthTurns_eq depths ev ht, keysTurns_eq ht ids, Option.bind_eq_bind, Option.bind_some]

end

/-! ## Termination -/

/-- The sort ends when it has nothing to sort, or the power-levels events behind
the resolved one do not lead back to one of them. -/
theorem mainline_sort_ends_iff (store : EventStore) (toSort : List EventId) (powerLevels : Option EventId) :
    (∃ turns, (mainlineSortTurns store turns toSort powerLevels).isSome = true) ↔
      toSort = [] ∨ ¬ Descent.Cycles (nextPowerLevels store) powerLevels := by
  unfold mainlineSortTurns
  by_cases hs : toSort = []
  · simp [hs]
  · simp only [hs, if_false, false_or]
    constructor
    · rintro ⟨turns, h⟩ hc
      rw [mainlineWalk_loops hc] at h
      cases h
    · intro h
      obtain ⟨depths, hd⟩ := Option.isSome_iff_exists.mp (mainlineWalk_ends h)
      exact ⟨store.events.length + 2, by simp [hd, keysTurns_eq (Nat.le_succ _)]⟩

/-! ## A power-levels event that cites itself -/

def loopStore : EventStore where
  events :=
    [stateEvent "$c:a" "@alice:a" .roomCreate "" [("creator", .str "@alice:a")] [],
      stateEvent "$m:a" "@alice:a" .roomMember "@alice:a" [("membership", .str "join")] ["$c:a"],
      stateEvent "$p:a" "@alice:a" .roomPowerLevels "" [("users", .obj [("@alice:a", .num 100)])]
        ["$c:a", "$m:a", "$p:a"],
      stateEvent "$t1:a" "@alice:a" (.other "m.room.topic") "" [] ["$c:a", "$m:a", "$p:a"],
      stateEvent "$t2:a" "@alice:a" (.other "m.room.topic") "" [] ["$c:a", "$m:a", "$p:a"]]
  nodup := by decide

def loopSet (topic : EventId) : StateMap EventId :=
  AList.insert (.other "m.room.topic", "") topic <| AList.insert (.roomCreate, "") "$c:a" <|
    AList.insert (.roomMember, "@alice:a") "$m:a" <| AList.insert (.roomPowerLevels, "") "$p:a" ∅

/-- The error a resolution ends with. -/
def errorOf {α : Type} : Except Error α → Option Error
  | .ok _ => none
  | .error e => some e

/-- The sort of the topics never ends, and with it the resolution of the room. -/
theorem mainline_sort_loops :
    (¬ ∃ turns, (mainlineSortTurns loopStore turns ["$t1:a", "$t2:a"] (some "$p:a")).isSome = true) ∧
      errorOf (resolve .plain inOrder .V1 [loopSet "$t1:a", loopSet "$t2:a"] loopStore (authChainOf loopStore)) =
        some .diverges := by
  refine ⟨?_, by decide⟩
  rintro ⟨turns, h⟩
  have hloop : nextPowerLevels loopStore "$p:a" = some "$p:a" := by decide
  have hc : Descent.Cycles (nextPowerLevels loopStore) (some "$p:a") :=
    ⟨"$p:a", rfl, "$p:a", .refl, .single hloop⟩
  simp [mainlineSortTurns, mainlineWalk_loops hc] at h

end Congruent
