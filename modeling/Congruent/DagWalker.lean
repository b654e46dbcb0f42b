import Mathlib.Data.Finset.Dedup
import Mathlib.Data.Finset.Card
import Congruent.Event
import Congruent.Worklist

/-!
# The walker of the event graph (`utils/dag_walker.rs`)

Depth first from a list of seeds along auth events. The events seen are remembered when
they are pushed, and the seeds are pushed as they are given.
-/

namespace Congruent.DagWalker

/-- What fetching an event gives: the event, whether it is rejected and whether soft-failed. -/
inductive FetchResult where
  | timeline (pdu : Pdu) (isRejected isSoftFailed : Bool)
  | outlier (pdu : Pdu) (isRejected isSoftFailed : Bool)
  | missing

structure WalkResult where
  inTimeline : Nat := 0
  inOutlier : Nat := 0
  missing : List EventId := []
  rejected : Nat := 0
  softFailed : Nat := 0
  deriving DecidableEq

/-- `usize::saturating_add(1)`. -/
def bump (n : Nat) : Nat := min (n + 1) 18446744073709551615

abbrev EventStore := AList fun _ : EventId => FetchResult

def fetchEvent (store : EventStore) (id : EventId) : FetchResult := (store.lookup id).getD .missing

/-- The loop: what it counted, the queue with its end first, the events seen, and the events
fetched so far. -/
structure Walk where
  result : WalkResult
  queue : List EventId
  seen : Finset EventId
  fetched : List EventId

namespace Walk

/-- `if seen.insert(..) { queue.push(..) }`. -/
def push (w : Walk) (authId : EventId) : Walk :=
  if authId ∈ w.seen then w else { w with queue := authId :: w.queue, seen := insert authId w.seen }

def found (w : Walk) (pdu : Pdu) (isRejected isSoftFailed : Bool) : Walk :=
  pdu.authEvents.foldl push { w with result := { w.result with
    rejected := if isRejected then bump w.result.rejected else w.result.rejected
    softFailed := if isSoftFailed then bump w.result.softFailed else w.result.softFailed } }

def visit (store : EventStore) (w : Walk) (eventId : EventId) : Walk :=
  let w := { w with fetched := w.fetched ++ [eventId] }
  match fetchEvent store eventId with
  | .timeline pdu isRejected isSoftFailed =>
    { w with result := { w.result with inTimeline := bump w.result.inTimeline } }.found pdu isRejected isSoftFailed
  | .outlier pdu isRejected isSoftFailed =>
    { w with result := { w.result with inOutlier := bump w.result.inOutlier } }.found pdu isRejected isSoftFailed
  | .missing => { w with result := { w.result with missing := w.result.missing ++ [eventId] } }

def run (store : EventStore) : (fuel : Nat) → Walk → Option Walk
  | 0, _ => none
  | fuel + 1, w =>
    match w.queue with
    | [] => some w
    | eventId :: queue => run store fuel ({ w with queue := queue }.visit store eventId)

end Walk

def start (seeds : List EventId) : Walk := ⟨{}, seeds.reverse, seeds.toFinset, []⟩

def walkDag (store : EventStore) (fuel : Nat) (seeds : List EventId) : Option Walk := (start seeds).run store fuel

/-! ## The graph -/

def edges (store : EventStore) (id : EventId) : List EventId :=
  match fetchEvent store id with
  | .timeline pdu _ _ => pdu.authEvents
  | .outlier pdu _ _ => pdu.authEvents
  | .missing => []

def isMissing (store : EventStore) (id : EventId) : Bool :=
  match fetchEvent store id with
  | .missing => true
  | _ => false

def Reachable (store : EventStore) (seeds : List EventId) (id : EventId) : Prop :=
  ∃ seed ∈ seeds, Worklist.Reach (edges store) seed id

def targets (store : EventStore) : Finset EventId := (store.keys.flatMap (edges store)).toFinset

theorem mem_targets {store : EventStore} {id target : EventId} (h : target ∈ edges store id) :
    target ∈ targets store := by
  rw [targets, List.mem_toFinset, List.mem_flatMap]
  refine ⟨id, ?_, h⟩
  by_contra hno
  have hnone : store.lookup id = none := AList.lookup_eq_none.mpr hno
  unfold edges fetchEvent at h
  rw [hnone] at h
  cases h

/-! ## A turn -/

section
variable {store : EventStore} {seeds : List EventId}

/-- The walk pushes the targets not seen before, each once. -/
structure Pushed (w w' : Walk) (new targets : List EventId) : Prop where
  queue : w'.queue = new ++ w.queue
  seen : w'.seen = w.seen ∪ new.toFinset
  nodup : new.Nodup
  fresh : ∀ x ∈ new, x ∉ w.seen
  mem : ∀ x, x ∈ w'.seen ↔ x ∈ w.seen ∨ x ∈ targets

theorem foldl_push (targets : List EventId) (w : Walk) :
    (∃ new, Pushed w (targets.foldl Walk.push w) new targets) ∧ (targets.foldl Walk.push w).fetched = w.fetched ∧
      (targets.foldl Walk.push w).result = w.result := by
  induction targets generalizing w with
  | nil => exact ⟨⟨[], by simp, by simp, List.nodup_nil, by simp, by simp⟩, rfl, rfl⟩
  | cons target targets ih =>
    rw [List.foldl_cons]
    obtain ⟨⟨new, hnew⟩, hfetched, hresult⟩ := ih (w.push target)
    unfold Walk.push at hnew hfetched hresult ⊢
    by_cases h : target ∈ w.seen
    · rw [if_pos h] at hnew hfetched hresult ⊢
      refine ⟨⟨new, hnew.queue, hnew.seen, hnew.nodup, hnew.fresh, fun x => ?_⟩, hfetched, hresult⟩
      rw [hnew.mem, List.mem_cons]
      constructor
      · exact Or.imp_right Or.inr
      · rintro (hx | rfl | hx)
        · exact Or.inl hx
        · exact Or.inl h
        · exact Or.inr hx
    · rw [if_neg h] at hnew hfetched hresult ⊢
      refine ⟨⟨new ++ [target], ?_, ?_, ?_, ?_, fun x => ?_⟩, hfetched, hresult⟩
      · rw [hnew.queue, List.append_assoc, List.singleton_append]
      · rw [hnew.seen]
        ext x
        simp only [Finset.mem_union, Finset.mem_insert, List.mem_toFinset, List.mem_append, List.mem_singleton]
        tauto
      · refine List.nodup_append.mpr ⟨hnew.nodup, List.nodup_singleton _, fun x hx y hy heq => ?_⟩
        rw [List.mem_singleton] at hy
        exact hnew.fresh x hx (by rw [heq, hy]; exact Finset.mem_insert_self _ _)
      · intro x hx
        rcases List.mem_append.mp hx with hx | hx
        · exact fun hmem => hnew.fresh x hx (Finset.mem_insert_of_mem hmem)
        · rwa [List.mem_singleton.mp hx]
      · rw [hnew.mem, List.mem_cons, Finset.mem_insert]
        tauto

theorem found_spec (w w' : Walk) (hqueue : w'.queue = w.queue) (hseen : w'.seen = w.seen) (pdu : Pdu)
    (isRejected isSoftFailed : Bool) :
    (∃ new, Pushed w (w'.found pdu isRejected isSoftFailed) new pdu.authEvents) ∧
      (w'.found pdu isRejected isSoftFailed).fetched = w'.fetched ∧
      (w'.found pdu isRejected isSoftFailed).result.missing = w'.result.missing := by
  unfold Walk.found
  obtain ⟨⟨new, hnew⟩, hfetched, hresult⟩ := foldl_push pdu.authEvents { w' with result := { w'.result with
    rejected := if isRejected then bump w'.result.rejected else w'.result.rejected
    softFailed := if isSoftFailed then bump w'.result.softFailed else w'.result.softFailed } }
  refine ⟨⟨new, ?_, ?_, hnew.nodup, ?_, ?_⟩, hfetched, by rw [hresult]⟩
  · rw [hnew.queue, ← hqueue]
  · rw [hnew.seen, ← hseen]
  · rw [← hseen]
    exact hnew.fresh
  · rw [← hseen]
    exact hnew.mem

theorem visit_spec (store : EventStore) (w : Walk) (id : EventId) :
    (∃ new, Pushed w (w.visit store id) new (edges store id)) ∧ (w.visit store id).fetched = w.fetched ++ [id] ∧
      (w.visit store id).result.missing = w.result.missing ++ [id].filter (isMissing store) := by
  unfold Walk.visit edges isMissing
  cases h : fetchEvent store id with
  | timeline pdu isRejected isSoftFailed =>
    have hfound := found_spec w ⟨{ w.result with inTimeline := bump w.result.inTimeline }, w.queue,
      w.seen, w.fetched ++ [id]⟩ rfl rfl pdu isRejected isSoftFailed
    simpa [h] using hfound
  | outlier pdu isRejected isSoftFailed =>
    have hfound := found_spec w ⟨{ w.result with inOutlier := bump w.result.inOutlier }, w.queue,
      w.seen, w.fetched ++ [id]⟩ rfl rfl pdu isRejected isSoftFailed
    simpa [h] using hfound
  | missing =>
    refine ⟨⟨[], ?_, ?_, List.nodup_nil, ?_, ?_⟩, rfl, ?_⟩ <;> simp [h]

/-! ## The walk -/

/-- What the loop keeps. -/
structure Walking (store : EventStore) (seeds : List EventId) (w : Walk) : Prop where
  /-- What was pushed are the seeds, as they were given, and other events once. -/
  pushed : ∃ extra, (w.fetched ++ w.queue).Perm (seeds ++ extra) ∧ extra.Nodup ∧ (∀ x ∈ extra, x ∉ seeds) ∧
    w.seen = (seeds ++ extra).toFinset
  closed : ∀ x ∈ w.fetched, ∀ y ∈ edges store x, y ∈ w.seen
  sound : ∀ x ∈ w.seen, Reachable store seeds x
  missing : w.result.missing = w.fetched.filter (isMissing store)

theorem walking_start : Walking store seeds (start seeds) := by
  refine ⟨⟨[], ?_, List.nodup_nil, by simp, by simp [start]⟩, by simp [start], fun x hx => ?_, rfl⟩
  · rw [List.append_nil]
    exact List.reverse_perm seeds
  · exact ⟨x, List.mem_toFinset.mp hx, .refl⟩

theorem Walking.mem_seen {w : Walk} (h : Walking store seeds w) {x : EventId} :
    x ∈ w.seen ↔ x ∈ w.fetched ∨ x ∈ w.queue := by
  obtain ⟨extra, hperm, -, -, hseen⟩ := h.pushed
  rw [hseen, List.mem_toFinset, ← hperm.mem_iff, List.mem_append]

theorem Walking.turn {w : Walk} (h : Walking store seeds w) {id : EventId} {queue : List EventId}
    (hq : w.queue = id :: queue) : Walking store seeds ({ w with queue := queue }.visit store id) := by
  obtain ⟨⟨new, hnew⟩, hfetched, hmissing⟩ := visit_spec store { w with queue := queue } id
  obtain ⟨extra, hperm, hnodup, hother, hseen⟩ := h.pushed
  have hid : id ∈ w.seen := h.mem_seen.mpr (Or.inr (by rw [hq]; exact List.mem_cons_self))
  have hfresh : ∀ x ∈ new, x ∉ w.seen := hnew.fresh
  refine ⟨⟨extra ++ new, ?_, ?_, ?_, ?_⟩, ?_, ?_, ?_⟩
  · rw [hfetched, hnew.queue, ← List.append_assoc, List.append_assoc w.fetched]
    have hmid : (w.fetched ++ ([id] ++ new) ++ queue).Perm (w.fetched ++ (id :: queue) ++ new) := by
      rw [List.append_assoc, List.append_assoc, List.append_assoc]
      have hswap : (new ++ queue).Perm (queue ++ new) := List.perm_append_comm
      exact List.Perm.append_left w.fetched (hswap.cons id)
    rw [← hq] at hmid
    exact hmid.trans (List.append_assoc .. ▸ hperm.append_right new)
  · refine List.nodup_append.mpr ⟨hnodup, hnew.nodup, fun x hx y hy heq => hfresh y hy ?_⟩
    rw [hseen, List.mem_toFinset, ← heq]
    exact List.mem_append_right _ hx
  · intro x hx hs
    rcases List.mem_append.mp hx with hx | hx
    · exact hother x hx hs
    · refine hfresh x hx ?_
      rw [hseen, List.mem_toFinset]
      exact List.mem_append_left _ hs
  · rw [hnew.seen, ← List.append_assoc, List.toFinset_append, ← hseen]
  · intro x hx y hy
    rw [hfetched] at hx
    rw [hnew.mem]
    rcases List.mem_append.mp hx with hx | hx
    · exact Or.inl (h.closed x hx y hy)
    · rw [List.mem_singleton.mp hx] at hy
      exact Or.inr hy
  · intro x hx
    rcases (hnew.mem x).mp hx with hx | hx
    · exact h.sound x hx
    · obtain ⟨seed, hseed, hreach⟩ := h.sound id hid
      exact ⟨seed, hseed, hreach.tail hx⟩
  · rw [hmissing, hfetched, List.filter_append, ← h.missing]

def turnsLeft (store : EventStore) (w : Walk) : Nat := w.queue.length + (targets store \ w.seen).card

theorem turnsLeft_turn (store : EventStore) {w : Walk} {id : EventId} {queue : List EventId}
    (hq : w.queue = id :: queue) :
    turnsLeft store ({ w with queue := queue }.visit store id) + 1 = turnsLeft store w := by
  obtain ⟨⟨new, hnew⟩, -, -⟩ := visit_spec store { w with queue := queue } id
  have hsub : new.toFinset ⊆ targets store \ w.seen := by
    intro x hx
    rw [List.mem_toFinset] at hx
    refine Finset.mem_sdiff.mpr ⟨?_, hnew.fresh x hx⟩
    have hmem : x ∈ (Walk.visit store { w with queue := queue } id).seen := by
      rw [hnew.seen]
      exact Finset.mem_union_right _ (List.mem_toFinset.mpr hx)
    exact mem_targets (((hnew.mem x).mp hmem).resolve_left (hnew.fresh x hx))
  have hcard := Finset.card_sdiff_add_card_eq_card hsub
  rw [List.toFinset_card_of_nodup hnew.nodup] at hcard
  unfold turnsLeft
  rw [hnew.queue, hnew.seen, hq, List.length_append, List.length_cons]
  show new.length + queue.length + (targets store \ (w.seen ∪ new.toFinset)).card + 1 = _
  rw [← Finset.sup_eq_union, ← sdiff_sdiff_left]
  show _ + ((targets store \ w.seen) \ new.toFinset).card + 1 = _
  omega

theorem run_spec {fuel : Nat} {w : Walk} (h : Walking store seeds w) (hfuel : turnsLeft store w < fuel) :
    ∃ w', w.run store fuel = some w' ∧ w'.queue = [] ∧ Walking store seeds w' := by
  induction fuel generalizing w with
  | zero => cases hfuel
  | succ fuel ih =>
    unfold Walk.run
    split
    · rename_i hq
      exact ⟨w, rfl, hq, h⟩
    · rename_i id queue hq
      have hleft := turnsLeft_turn store hq
      exact ih (h.turn hq) (by omega)

/-! ## Counting once -/

/-- Every reachable event is fetched once and no other, and the missing ones are reported
once each. -/
structure CountsOnce (store : EventStore) (seeds : List EventId) (w : Walk) : Prop where
  fetched : ∀ x, Reachable store seeds x → w.fetched.count x = 1
  only : ∀ x ∈ w.fetched, Reachable store seeds x
  missing : ∀ x, x ∈ w.result.missing ↔ Reachable store seeds x ∧ isMissing store x = true
  missing_once : w.result.missing.Nodup

theorem Walking.mem_fetched {w : Walk} (h : Walking store seeds w) (hq : w.queue = []) (x : EventId) :
    x ∈ w.fetched ↔ Reachable store seeds x := by
  have hseen : ∀ y, y ∈ w.seen ↔ y ∈ w.fetched := fun y => by simp [h.mem_seen, hq]
  rw [← hseen]
  refine ⟨h.sound x, ?_⟩
  rintro ⟨seed, hseed, hreach⟩
  obtain ⟨extra, -, -, -, hall⟩ := h.pushed
  induction hreach with
  | refl =>
    rw [hall, List.mem_toFinset]
    exact List.mem_append_left _ hseed
  | tail _ hedge ih => exact h.closed _ ((hseen _).mp ih) _ hedge

theorem Walking.nodup_iff {w : Walk} (h : Walking store seeds w) (hq : w.queue = []) :
    w.fetched.Nodup ↔ seeds.Nodup := by
  obtain ⟨extra, hperm, hnodup, hother, -⟩ := h.pushed
  rw [hq, List.append_nil] at hperm
  rw [hperm.nodup_iff, List.nodup_append]
  exact ⟨And.left, fun hseeds => ⟨hseeds, hnodup, fun x hx y hy heq => hother y hy (heq ▸ hx)⟩⟩

/-- The walk ends. It counts every event once if and only if no seed is given twice. -/
theorem walk_dag_once_iff (store : EventStore) (seeds : List EventId) : ∃ n, ∀ fuel, n ≤ fuel →
    ∃ w, walkDag store fuel seeds = some w ∧ (CountsOnce store seeds w ↔ seeds.Nodup) := by
  refine ⟨turnsLeft store (start seeds) + 1, fun fuel hfuel => ?_⟩
  obtain ⟨w, hrun, hq, hwalk⟩ := run_spec walking_start (Nat.lt_of_succ_le hfuel)
  refine ⟨w, hrun, ?_⟩
  rw [← hwalk.nodup_iff hq]
  constructor
  · intro h
    refine List.nodup_iff_count_le_one.mpr fun x => ?_
    by_cases hx : x ∈ w.fetched
    · exact (h.fetched x (h.only x hx)).le
    · rw [List.count_eq_zero_of_not_mem hx]
      exact Nat.zero_le 1
  · intro hnodup
    refine ⟨fun x hx => ?_, fun x hx => (hwalk.mem_fetched hq x).mp hx, fun x => ?_, ?_⟩
    · exact List.count_eq_one_of_mem hnodup ((hwalk.mem_fetched hq x).mpr hx)
    · rw [hwalk.missing, List.mem_filter, hwalk.mem_fetched hq]
    · rw [hwalk.missing]
      exact hnodup.filter _

end

def onlyCreate : EventStore :=
  AList.singleton "$a" (.timeline (stateEvent "$a" "@alice:a" .roomCreate "" [] []) false false)

/-- An event that is given twice is counted twice. -/
theorem seed_given_twice : ∃ w, walkDag onlyCreate 3 ["$a", "$a"] = some w ∧ w.result.inTimeline = 2 ∧
    ¬CountsOnce onlyCreate ["$a", "$a"] w := by
  have hrun : (walkDag onlyCreate 3 ["$a", "$a"]).map (fun w => (w.fetched, w.result.inTimeline)) =
      some (["$a", "$a"], 2) := by
    decide
  obtain ⟨w, hw, heq⟩ := Option.map_eq_some_iff.mp hrun
  obtain ⟨hfetched, hcount⟩ := Prod.mk.inj heq
  refine ⟨w, hw, hcount, fun h => ?_⟩
  have hone := h.fetched "$a" ⟨"$a", List.mem_cons_self, .refl⟩
  rw [hfetched] at hone
  exact absurd hone (by decide)

end Congruent.DagWalker
