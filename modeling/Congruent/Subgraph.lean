import Congruent.FullConflicted

/-!
# The conflicted subgraph over concurrent fetches

`calculate_conflicted_subgraph` step by step. The fetches in flight complete in any
order; each completion files the reverse edges of its event and fetches what was
not seen before. Whatever the order, the ids found, the missing ids and the
reverse edges are the same.
-/

namespace Congruent

/-- The backwards search: the ids seen, those that could not be fetched, the
reverse edges, and the fetches in flight. -/
structure SubgraphSearch where
  backwardsReachable : List EventId
  missing : List EventId
  childrenMap : AList fun _ : EventId => List EventId
  work : List EventId

namespace SubgraphSearch

def start (seeds : List EventId) : SubgraphSearch := ⟨seeds, [], ∅, seeds⟩

def childrenOf (s : SubgraphSearch) (id : EventId) : List EventId := (s.childrenMap.lookup id).getD []

/-- One citation of a fetched event. -/
def cite (child : EventId) (s : SubgraphSearch) (auth : EventId) : SubgraphSearch :=
  let childrenMap := s.childrenMap.insert auth (s.childrenOf auth ++ [child])
  if auth ∈ s.backwardsReachable then { s with childrenMap }
  else { s with backwardsReachable := s.backwardsReachable ++ [auth], childrenMap, work := s.work ++ [auth] }

/-- The answer to the fetch of `id`. -/
def answer (s : SubgraphSearch) (id : EventId) : Option Pdu → SubgraphSearch
  | some evt => evt.authEvents.foldl (cite id) s
  | none => { s with missing := s.missing ++ [id] }

/-- The `i`-th of the fetches in flight completes. -/
def complete (store : EventStore) (s : SubgraphSearch) (i : Nat) : Option SubgraphSearch :=
  s.work[i]?.map fun id => { s with work := s.work.eraseIdx i }.answer id (store.fetch id)

def run (store : EventStore) : (schedule : List Nat) → SubgraphSearch → Option SubgraphSearch
  | [], s => some s
  | i :: schedule, s => (s.complete store i).bind (run store schedule)

def forwardsReachable (s : SubgraphSearch) (queue : List EventId) : List EventId :=
  let edges := (s.childrenMap.entries.map fun e => e.2.length).sum
  Worklist.visitBy s.childrenOf (fun children queue => queue ++ children) (queue.length + edges) queue []

def result (s : SubgraphSearch) (queue : List EventId) : List EventId × List EventId :=
  (s.backwardsReachable.filter fun id => id ∈ s.forwardsReachable queue, s.missing)

end SubgraphSearch

open SubgraphSearch

/-- A result of `calculate_conflicted_subgraph`: the set of conflicted ids is
iterated in some order for each of the searches, and the fetches complete in some order. -/
def SubgraphResult (store : EventStore) (conflicted : StateMap (List EventId)) (r : List EventId × List EventId) :
    Prop :=
  ∃ seeds queue schedule s, seeds.Perm (conflictedIds conflicted).dedup ∧
    queue.Perm (conflictedIds conflicted).dedup ∧ run store schedule (start seeds) = some s ∧ s.work = [] ∧
    r = s.result queue

/-! ## One event -/

section
variable {child : EventId}

theorem childrenOf_cite (s : SubgraphSearch) (auth a : EventId) :
    (cite child s auth).childrenOf a = if a = auth then s.childrenOf auth ++ [child] else s.childrenOf a := by
  have hmap : (cite child s auth).childrenMap = s.childrenMap.insert auth (s.childrenOf auth ++ [child]) := by
    unfold cite
    split <;> rfl
  rw [childrenOf, hmap]
  split
  · subst a
    rw [AList.lookup_insert, Option.getD_some]
  · rename_i ha
    rw [AList.lookup_insert_ne ha, childrenOf]

/-- What the citations of one event add: the ids first seen here. -/
structure Cites (child : EventId) (auths : List EventId) (s s' : SubgraphSearch) (fresh : List EventId) : Prop where
  nodup : fresh.Nodup
  new : ∀ x ∈ fresh, x ∈ auths ∧ x ∉ s.backwardsReachable
  reachable : s'.backwardsReachable = s.backwardsReachable ++ fresh
  work : s'.work = s.work ++ fresh
  seen : auths ⊆ s'.backwardsReachable
  children : ∀ a x, x ∈ s'.childrenOf a ↔ x ∈ s.childrenOf a ∨ x = child ∧ a ∈ auths

theorem cite_children (s : SubgraphSearch) (auth a x : EventId) :
    x ∈ (cite child s auth).childrenOf a ↔ x ∈ s.childrenOf a ∨ x = child ∧ a = auth := by
  rw [childrenOf_cite]
  by_cases ha : a = auth
  · subst a
    simp
  · simp [ha]

variable (child) in
theorem cites_cite (s : SubgraphSearch) (auth : EventId) : ∃ fresh, Cites child [auth] s
    (cite child s auth) fresh := by
  have hchildren : ∀ a x, x ∈ (cite child s auth).childrenOf a ↔ x ∈ s.childrenOf a ∨ x = child ∧ a ∈ [auth] := by
    intro a x
    rw [cite_children, List.mem_singleton]
  by_cases hauth : auth ∈ s.backwardsReachable
  · refine ⟨[], List.nodup_nil, by simp, ?_, ?_, ?_, hchildren⟩ <;> simp [cite, hauth]
  · refine ⟨[auth], List.nodup_singleton _, by simpa using hauth, ?_, ?_, ?_, hchildren⟩ <;> simp [cite, hauth]

theorem Cites.append {l l' fresh fresh' : List EventId} {s s' s'' : SubgraphSearch} (h : Cites child l s s' fresh)
    (h' : Cites child l' s' s'' fresh') : Cites child (l ++ l') s s'' (fresh ++ fresh') where
  nodup := List.Nodup.append h.nodup h'.nodup fun x hx hx' =>
    (h'.new x hx').2 (h.reachable ▸ List.mem_append_right _ hx)
  new x hx := by
    rcases List.mem_append.mp hx with hx | hx
    · exact ⟨List.mem_append_left _ (h.new x hx).1, (h.new x hx).2⟩
    · exact ⟨List.mem_append_right _ (h'.new x hx).1, fun hs =>
        (h'.new x hx).2 (h.reachable ▸ List.mem_append_left _ hs)⟩
  reachable := by rw [h'.reachable, h.reachable, List.append_assoc]
  work := by rw [h'.work, h.work, List.append_assoc]
  seen := List.append_subset.mpr ⟨fun x hx => h'.reachable ▸ List.mem_append_left _ (h.seen hx), h'.seen⟩
  children a x := by
    rw [h'.children, h.children, List.mem_append]
    tauto

theorem cites_foldl : ∀ (auths : List EventId) (s : SubgraphSearch),
    ∃ fresh, Cites child auths s (auths.foldl (cite child) s) fresh
  | [], s => ⟨[], List.nodup_nil, by simp, by simp, by simp, List.nil_subset _, by simp⟩
  | auth :: auths, s => by
    obtain ⟨one, hone⟩ := cites_cite child s auth
    obtain ⟨fresh, hfresh⟩ := cites_foldl auths (cite child s auth)
    exact ⟨one ++ fresh, hone.append hfresh⟩

theorem missing_foldl_cite : ∀ (auths : List EventId) (s : SubgraphSearch),
    (auths.foldl (cite child) s).missing = s.missing
  | [], _ => rfl
  | auth :: auths, s => by
    rw [List.foldl_cons, missing_foldl_cite auths]
    unfold cite
    split <;> rfl

end

theorem cites_answer (store : EventStore) (s : SubgraphSearch) (id : EventId) :
    ∃ fresh, Cites id (authEventsOf store id) s (s.answer id (store.fetch id)) fresh := by
  unfold authEventsOf
  cases store.fetch id with
  | none => exact ⟨[], List.nodup_nil, by simp, by simp [answer], by simp [answer], List.nil_subset _,
      by simp [answer, childrenOf]⟩
  | some evt => exact cites_foldl evt.authEvents s

theorem missing_answer (store : EventStore) (s : SubgraphSearch) (id : EventId) :
    (s.answer id (store.fetch id)).missing = s.missing ++ if store.fetch id = none then [id] else [] := by
  cases store.fetch id with
  | none => simp [answer]
  | some evt => simp [answer, missing_foldl_cite]

/-! ## Every order of completion -/

/-- Seen, and no longer in flight. -/
def Completed (s : SubgraphSearch) (x : EventId) : Prop := x ∈ s.backwardsReachable ∧ x ∉ s.work

/-- What holds between completions. -/
structure SubgraphInv (store : EventStore) (seeds : List EventId) (s : SubgraphSearch) : Prop where
  nodup : s.backwardsReachable.Nodup
  work_nodup : s.work.Nodup
  work : s.work ⊆ s.backwardsReachable
  sown : seeds ⊆ s.backwardsReachable
  reached : ∀ x ∈ s.backwardsReachable, ∃ c ∈ seeds, Worklist.Reach (authEventsOf store) c x
  closed : ∀ x, Completed s x → authEventsOf store x ⊆ s.backwardsReachable
  missing_nodup : s.missing.Nodup
  missing : ∀ x, x ∈ s.missing ↔ Completed s x ∧ store.fetch x = none
  children : ∀ a x, x ∈ s.childrenOf a ↔ Completed s x ∧ a ∈ authEventsOf store x

section
variable {store : EventStore} {seeds : List EventId} {s s' : SubgraphSearch}

theorem subgraphInv_start (hseeds : seeds.Nodup) : SubgraphInv store seeds (start seeds) where
  nodup := hseeds
  work_nodup := hseeds
  work := List.Subset.refl _
  sown := List.Subset.refl _
  reached x hx := ⟨x, hx, .refl⟩
  closed _ hx := absurd hx.1 hx.2
  missing_nodup := List.nodup_nil
  missing x := by simp [start, Completed]
  children a x := by simp [start, Completed, childrenOf]

theorem complete_cases {i : Nat} (h : s.complete store i = some s') :
    ∃ id, s.work[i]? = some id ∧ s' = { s with work := s.work.eraseIdx i }.answer id (store.fetch id) := by
  obtain ⟨id, hid, rfl⟩ := Option.map_eq_some_iff.mp h
  exact ⟨id, hid, rfl⟩

theorem mem_eraseIdx_iff {l : List EventId} (hl : l.Nodup) {i : Nat} {id : EventId} (hi : l[i]? = some id)
    (x : EventId) : x ∈ l.eraseIdx i ↔ x ∈ l ∧ x ≠ id := by
  obtain ⟨hlt, rfl⟩ := List.getElem?_eq_some_iff.mp hi
  rw [← hl.erase_getElem i hlt, hl.mem_erase_iff, and_comm]

theorem subgraphInv_complete {i : Nat} (h : s.complete store i = some s') (hs : SubgraphInv store seeds s) :
    SubgraphInv store seeds s' := by
  obtain ⟨id, hid, rfl⟩ := complete_cases h
  have hmem := mem_eraseIdx_iff hs.work_nodup hid
  have hin : id ∈ s.work := List.mem_of_getElem? hid
  obtain ⟨fresh, hc⟩ := cites_answer store { s with work := s.work.eraseIdx i } id
  have hm := missing_answer store { s with work := s.work.eraseIdx i } id
  generalize SubgraphSearch.answer _ id (store.fetch id) = s' at hc hm ⊢
  obtain ⟨hnd, hnew, hreach, hwork, hseen, hchildren⟩ := hc
  simp only at hnew hreach hwork
  -- the fetch that completes is the only one to leave the fetches in flight
  have hcompleted : ∀ x, Completed s' x ↔ Completed s x ∨ x = id := by
    intro x
    simp only [Completed, hreach, hwork, List.mem_append, hmem]
    have := hs.work hin
    have := hnew x
    grind
  refine ⟨?_, ?_, ?_, ?_, ?_, ?_, ?_, ?_, ?_⟩
  · rw [hreach]
    exact List.Nodup.append hs.nodup hnd fun x hx hx' => (hnew x hx').2 hx
  · rw [hwork]
    exact List.Nodup.append (hs.work_nodup.sublist (List.eraseIdx_sublist ..)) hnd fun x hx hx' =>
      (hnew x hx').2 (hs.work ((hmem x).mp hx).1)
  · rw [hreach, hwork]
    exact List.append_subset.mpr ⟨fun x hx => List.mem_append_left _ (hs.work ((hmem x).mp hx).1),
      List.subset_append_right _ _⟩
  · rw [hreach]
    exact fun x hx => List.mem_append_left _ (hs.sown hx)
  · intro x hx
    rw [hreach, List.mem_append] at hx
    rcases hx with hx | hx
    · exact hs.reached x hx
    · obtain ⟨c, hc, hr⟩ := hs.reached id (hs.work hin)
      exact ⟨c, hc, hr.tail (hnew x hx).1⟩
  · intro x hx
    rcases (hcompleted x).mp hx with hx | rfl
    · rw [hreach]
      exact fun a ha => List.mem_append_left _ (hs.closed x hx ha)
    · exact hseen
  · rw [hm]
    refine List.Nodup.append hs.missing_nodup (by split <;> simp) fun x hx hx' => ((hs.missing x).mp hx).1.2 ?_
    split at hx'
    · rwa [List.mem_singleton.mp hx']
    · cases hx'
  · intro x
    rw [hm, hcompleted, List.mem_append, hs.missing]
    split <;> grind
  · intro a x
    rw [hchildren, hcompleted]
    have : childrenOf { s with work := s.work.eraseIdx i } a = s.childrenOf a := rfl
    rw [this, hs.children]
    grind

theorem complete_count {i : Nat} (h : s.complete store i = some s') :
    s'.backwardsReachable.length + s.work.length = s.backwardsReachable.length + s'.work.length + 1 := by
  obtain ⟨id, hid, rfl⟩ := complete_cases h
  obtain ⟨hlt, -⟩ := List.getElem?_eq_some_iff.mp hid
  obtain ⟨fresh, hc⟩ := cites_answer store { s with work := s.work.eraseIdx i } id
  rw [hc.reachable, hc.work]
  simp only [List.length_append, List.length_eraseIdx_of_lt hlt]
  omega

theorem run_cons {i : Nat} {schedule : List Nat} (h : run store (i :: schedule) s = some s') :
    ∃ t, s.complete store i = some t ∧ run store schedule t = some s' := Option.bind_eq_some_iff.mp h

theorem subgraphInv_run : ∀ {schedule : List Nat} {s s' : SubgraphSearch}, run store schedule s = some s' →
    SubgraphInv store seeds s → SubgraphInv store seeds s'
  | [], _, _, h, hs => Option.some.inj h ▸ hs
  | _ :: _, _, _, h, hs => by
    obtain ⟨t, ht, h⟩ := run_cons h
    exact subgraphInv_run h (subgraphInv_complete ht hs)

theorem run_count : ∀ {schedule : List Nat} {s s' : SubgraphSearch}, run store schedule s = some s' →
    s'.backwardsReachable.length + s.work.length = s.backwardsReachable.length + s'.work.length + schedule.length
  | [], _, _, h => by
    cases h
    rfl
  | _ :: _, _, _, h => by
    obtain ⟨t, ht, h⟩ := run_cons h
    have hone := complete_count ht
    have hrest := run_count h
    rw [List.length_cons]
    omega

theorem run_append : ∀ {schedule rest : List Nat} {s s' : SubgraphSearch}, run store schedule s = some s' →
    run store (schedule ++ rest) s = run store rest s'
  | [], _, _, _, h => by
    cases h
    rfl
  | i :: schedule, rest, s, _, h => by
    obtain ⟨t, ht, h⟩ := run_cons h
    rw [List.cons_append, run, ht, Option.bind_some, run_append h]

theorem SubgraphInv.length_le (hs : SubgraphInv store seeds s) :
    s.backwardsReachable.length ≤ seeds.length + (store.events.map (·.authEvents.length)).sum := by
  have hsub : s.backwardsReachable ⊆ seeds ++ store.events.flatMap (·.authEvents) := by
    intro x hx
    obtain ⟨c, hc, hr⟩ := hs.reached x hx
    rcases Relation.ReflTransGen.cases_tail hr with rfl | ⟨y, -, hy⟩
    · exact List.mem_append_left _ hc
    · unfold authEventsOf at hy
      cases hf : store.fetch y with
      | none => simp [hf] at hy
      | some evt =>
        rw [hf] at hy
        exact List.mem_append_right _ (List.mem_flatMap.mpr ⟨evt, store.mem_of_fetch hf, hy⟩)
  have hle := (hs.nodup.subperm hsub).length_le
  rwa [List.length_append, List.length_flatMap] at hle

theorem run_length_le {schedule : List Nat} (hseeds : seeds.Nodup) (h : run store schedule (start seeds) = some s) :
    schedule.length ≤ seeds.length + (store.events.map (·.authEvents.length)).sum := by
  have hcount := run_count h
  have hle := (subgraphInv_run h (subgraphInv_start hseeds)).length_le
  have hstart : (start seeds).backwardsReachable.length = (start seeds).work.length := rfl
  omega

theorem run_finishes (hs : SubgraphInv store seeds s) : ∃ rest t, run store rest s = some t ∧ t.work = [] := by
  have hle := hs.length_le
  generalize hn : seeds.length + (store.events.map (·.authEvents.length)).sum + s.work.length -
    s.backwardsReachable.length = n
  induction n generalizing s with
  | zero => exact ⟨[], s, rfl, List.length_eq_zero_iff.mp (by omega)⟩
  | succ n ih =>
    cases hw : s.work with
    | nil => exact ⟨[], s, rfl, hw⟩
    | cons id work =>
      obtain ⟨t, ht⟩ : ∃ t, s.complete store 0 = some t := ⟨_, by simp [complete, hw]; rfl⟩
      have hcount := complete_count ht
      have hinv := subgraphInv_complete ht hs
      have htle := hinv.length_le
      obtain ⟨rest, t', hrun, hdone⟩ := ih hinv htle (by omega)
      exact ⟨0 :: rest, t', by rw [run, ht, Option.bind_some, hrun], hdone⟩

/-! ## The forwards search -/

theorem childrenOf_nil (s : SubgraphSearch) (id : EventId) : id ∈ s.childrenMap.keys ∨ s.childrenOf id = [] := by
  by_cases h : id ∈ s.childrenMap
  · exact Or.inl h
  · exact Or.inr (by rw [childrenOf, AList.lookup_eq_none.mpr h, Option.getD_none])

theorem forwards_fuel (s : SubgraphSearch) :
    Worklist.remaining s.childrenOf s.childrenMap.keys [] =
      (s.childrenMap.entries.map fun e => e.2.length).sum := by
  unfold Worklist.remaining AList.keys List.keys
  rw [List.map_map]
  congr 1
  refine List.map_congr_left fun e he => ?_
  have hlookup : s.childrenMap.lookup e.1 = some e.2 := AList.mem_lookup_iff.mpr he
  simp [childrenOf, hlookup]

theorem mem_forwardsReachable (hs : SubgraphInv store seeds s) (hw : s.work = [])
    {queue : List EventId} {x : EventId}
    (hx : x ∈ s.backwardsReachable) :
    x ∈ s.forwardsReachable queue ↔ ∃ c ∈ queue, Worklist.Reach (authEventsOf store) x c := by
  have hcompleted : ∀ y, Completed s y ↔ y ∈ s.backwardsReachable := fun y => by simp [Completed, hw]
  unfold forwardsReachable
  rw [Worklist.mem_visitBy s.childrenOf (fun _ _ => List.perm_append_comm) s.childrenMap.keys (childrenOf_nil s)
    (by rw [forwards_fuel])]
  refine exists_congr fun c => and_congr_right fun _ => ⟨fun h => ?_, fun h => ?_⟩
  · clear hx
    induction h with
    | refl => exact .refl
    | tail _ hb ih => exact Relation.ReflTransGen.head ((hs.children _ _).mp hb).2 ih
  · induction h using Relation.ReflTransGen.head_induction_on with
    | refl => exact .refl
    | head hxy _ ih =>
      exact (ih (hs.closed _ ((hcompleted _).mpr hx) hxy)).tail ((hs.children _ _).mpr ⟨(hcompleted _).mpr hx, hxy⟩)

theorem mem_backwardsReachable (hs : SubgraphInv store seeds s) (hw : s.work = []) (x : EventId) :
    x ∈ s.backwardsReachable ↔ ∃ c ∈ seeds, Worklist.Reach (authEventsOf store) c x := by
  refine ⟨hs.reached x, ?_⟩
  rintro ⟨c, hc, hr⟩
  induction hr with
  | refl => exact hs.sown hc
  | tail _ hab ih => exact hs.closed _ ⟨ih, by simp [hw]⟩ hab

end

/-! ## The result -/

section
variable (store : EventStore) (conflicted : StateMap (List EventId))

/-- Some conflicted event reaches `x`. -/
def ReachedByConflict (x : EventId) : Prop :=
  ∃ c ∈ conflictedIds conflicted, Worklist.Reach (authEventsOf store) c x

/-- `x` reaches some conflicted event. -/
def ReachesConflict (x : EventId) : Prop :=
  ∃ c ∈ conflictedIds conflicted, Worklist.Reach (authEventsOf store) x c

/-- The subgraph and the missing ids, each once. -/
structure ExactSubgraph (r : List EventId × List EventId) : Prop where
  nodup : r.1.Nodup
  subgraph : ∀ x, x ∈ r.1 ↔ ReachedByConflict store conflicted x ∧ ReachesConflict store conflicted x
  missing_nodup : r.2.Nodup
  missing : ∀ x, x ∈ r.2 ↔ ReachedByConflict store conflicted x ∧ store.fetch x = none

end

section
variable {store : EventStore} {conflicted : StateMap (List EventId)}

theorem exactSubgraph_result {r : List EventId × List EventId} (h : SubgraphResult store conflicted r) :
    ExactSubgraph store conflicted r := by
  obtain ⟨seeds, queue, schedule, s, hseeds, hqueue, hrun, hw, rfl⟩ := h
  have hinv := subgraphInv_run hrun (subgraphInv_start (hseeds.nodup_iff.mpr (List.nodup_dedup _)))
  have hback : ∀ x, x ∈ s.backwardsReachable ↔ ReachedByConflict store conflicted x := by
    intro x
    simp only [mem_backwardsReachable hinv hw, hseeds.mem_iff, List.mem_dedup]
    rfl
  refine ⟨hinv.nodup.filter _, fun x => ?_, hinv.missing_nodup, fun x => ?_⟩
  · simp only [result, List.mem_filter, decide_eq_true_eq]
    rw [← hback]
    refine and_congr_right fun hx => ?_
    simp only [mem_forwardsReachable hinv hw hx, hqueue.mem_iff, List.mem_dedup]
    rfl
  · simp only [result, hinv.missing, Completed, hw, List.not_mem_nil, not_false_eq_true, and_true, hback]

theorem ExactSubgraph.perm {r r' : List EventId × List EventId} (h : ExactSubgraph store conflicted r)
    (h' : ExactSubgraph store conflicted r') : r.1.Perm r'.1 ∧ r.2.Perm r'.2 :=
  ⟨(List.perm_ext_iff_of_nodup h.nodup h'.nodup).mpr fun x => (h.subgraph x).trans (h'.subgraph x).symm,
    (List.perm_ext_iff_of_nodup h.missing_nodup h'.missing_nodup).mpr fun x => (h.missing x).trans
      (h'.missing x).symm⟩

end

/-- The subgraph is exact, the same for every order of the fetches, and they come to an end. -/
theorem conflicted_subgraph_exact (store : EventStore) (conflicted : StateMap (List EventId)) :
    (∀ r, SubgraphResult store conflicted r → ExactSubgraph store conflicted r) ∧
    (∀ r r', SubgraphResult store conflicted r → SubgraphResult store conflicted r' →
      r.1.Perm r'.1 ∧ r.2.Perm r'.2) ∧
    ∀ seeds schedule s, seeds.Perm (conflictedIds conflicted).dedup → run store schedule (start seeds) = some s →
      schedule.length ≤ seeds.length + (store.events.map (·.authEvents.length)).sum ∧
        ∃ rest t, run store (schedule ++ rest) (start seeds) = some t ∧ t.work = [] := by
  refine ⟨fun r => exactSubgraph_result, fun r r' h h' => (exactSubgraph_result h).perm
    (exactSubgraph_result h'), ?_⟩
  intro seeds schedule s hseeds hrun
  have hnodup : seeds.Nodup := hseeds.nodup_iff.mpr (List.nodup_dedup _)
  obtain ⟨rest, t, hrest, hdone⟩ := run_finishes (subgraphInv_run hrun (subgraphInv_start hnodup))
  exact ⟨run_length_le hnodup hrun, rest, t, by rw [run_append hrun, hrest], hdone⟩

/-! ## A cycle with a hole -/

/-- Two events that cite each other, the second also one that is gone. -/
def cycleStore : EventStore where
  events :=
    [stateEvent "$a" "@alice:a" .roomPowerLevels "" [] ["$b"],
      stateEvent "$b" "@alice:a" .roomPowerLevels "" [] ["$gone", "$a", "$a"]]
  nodup := by decide

def cycleConflict : StateMap (List EventId) := AList.insert (.roomPowerLevels, "") ["$a"] ∅

theorem conflicted_subgraph_exact_cycle :
    SubgraphResult cycleStore cycleConflict (["$a", "$b"], ["$gone"]) ∧
      ExactSubgraph cycleStore cycleConflict (["$a", "$b"], ["$gone"]) := by
  have h : SubgraphResult cycleStore cycleConflict (["$a", "$b"], ["$gone"]) :=
    ⟨["$a"], ["$a"], [0, 0, 0], _, .refl _, .refl _, rfl, by decide, by decide⟩
  exact ⟨h, (conflicted_subgraph_exact cycleStore cycleConflict).1 _ h⟩

end Congruent
