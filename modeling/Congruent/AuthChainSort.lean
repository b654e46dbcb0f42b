import Congruent.Federation
import Mathlib.Order.WellFounded
import Mathlib.Data.Fintype.EquivFin
import Mathlib.Data.List.Perm.Basic

/-!
# Order of a fetched auth chain

The events of an `/event_auth` response are handled one after the other, those an event
cites before it. An event is held back while its count of cited events is not zero.
-/

namespace Congruent

open Relation (TransGen)

abbrev Chain := List (EventId × (Object × Pdu))

namespace Chain

def ids (chain : Chain) : List EventId := chain.map (·.1)

def cited (chain : Chain) (eid : EventId) : List EventId :=
  match List.lookup eid chain with
  | some (_, pdu) => pdu.authEvents.filter fun a => (List.lookup a chain).isSome
  | none => []

/-- An auth edge of the response. -/
def Cites (chain : Chain) (eid a : EventId) : Prop := a ∈ chain.cited eid

def InOrder (chain : Chain) (sorted : List EventId) : Prop :=
  (∀ eid ∈ chain.ids, sorted.count eid = 1) ∧
    ∀ eid ∈ chain.ids, ∀ a ∈ chain.cited eid, sorted.idxOf a < sorted.idxOf eid

variable {chain : Chain} {eid a : EventId}

theorem isSome_lookup_iff : (List.lookup eid chain).isSome ↔ eid ∈ chain.ids := by
  rw [List.lookup_isSome_iff, ids, List.mem_map]
  constructor
  · rintro ⟨p, hp, heq⟩
    exact ⟨p, hp, (beq_iff_eq.1 heq).symm⟩
  · rintro ⟨p, hp, rfl⟩
    exact ⟨p, hp, beq_self_eq_true _⟩

theorem mem_ids_of_cited (h : a ∈ chain.cited eid) : a ∈ chain.ids ∧ eid ∈ chain.ids := by
  unfold cited at h
  cases hl : List.lookup eid chain with
  | none => simp [hl] at h
  | some p =>
    rw [hl] at h
    exact ⟨isSome_lookup_iff.1 (List.mem_filter.1 h).2, isSome_lookup_iff.1 (by simp [hl])⟩

theorem chainDegree_eq (eid : EventId) : chainDegree chain eid = (chain.cited eid).length := by
  unfold chainDegree cited
  cases List.lookup eid chain <;> rfl

/-! ## One turn of the loop -/

theorem popAuthChain_cons (ha : a ∈ chain.ids) (other : EventId) (order queue : List EventId)
    (degree : EventId → Nat) :
    popAuthChain chain (other :: order) a queue degree =
      if a ∈ chain.cited other then
        popAuthChain chain order a (if degree other - 1 = 0 then other :: queue else queue)
          (Function.update degree other (degree other - 1))
      else popAuthChain chain order a queue degree := by
  cases hl : List.lookup other chain with
  | none =>
    have hnot : a ∉ chain.cited other := by simp [cited, hl]
    rw [if_neg hnot]
    simp [popAuthChain, hl]
  | some p =>
    have hiff : a ∈ chain.cited other ↔ p.2.authEvents.contains a = true := by
      simp only [cited, hl, List.mem_filter, isSome_lookup_iff, ha, and_true, List.contains_iff_mem]
    by_cases hc : a ∈ chain.cited other
    · rw [if_pos hc]
      simp only [popAuthChain, List.foldl_cons, hl, if_pos (hiff.1 hc)]
    · rw [if_neg hc]
      simp only [popAuthChain, List.foldl_cons, hl, if_neg (mt hiff.2 hc)]

theorem popAuthChain_eq (ha : a ∈ chain.ids) {order : List EventId} (hn : order.Nodup) (queue : List EventId)
    (degree : EventId → Nat) :
    popAuthChain chain order a queue degree =
      ((order.filter fun x => a ∈ chain.cited x ∧ degree x - 1 = 0).reverse ++ queue,
        fun x => if x ∈ order ∧ a ∈ chain.cited x then degree x - 1 else degree x) := by
  induction order generalizing queue degree with
  | nil => simp [popAuthChain]
  | cons other order ih =>
    obtain ⟨hnot, hn⟩ := List.nodup_cons.1 hn
    rw [popAuthChain_cons ha]
    by_cases hc : a ∈ chain.cited other
    · rw [if_pos hc, ih hn]
      have hother : ∀ x ∈ order, Function.update degree other (degree other - 1) x = degree x := by
        intro x hx
        have hne : x ≠ other := by
          rintro rfl
          exact hnot hx
        exact Function.update_of_ne hne _ _
      refine Prod.ext ?_ (funext fun x => ?_)
      · have hfilter : (order.filter fun x => a ∈ chain.cited x ∧ Function.update degree other
          (degree other - 1) x - 1 = 0) =
            order.filter fun x => a ∈ chain.cited x ∧ degree x - 1 = 0 := by
          apply List.filter_congr
          intro x hx
          rw [hother x hx]
        simp only [hfilter]
        by_cases hd : degree other - 1 = 0
        · simp [hc, hd]
        · simp [hc, hd]
      · by_cases heq : x = other
        · subst heq
          simp [hnot, hc]
        · simp [heq]
    · rw [if_neg hc, ih hn]
      refine Prod.ext ?_ (funext fun x => ?_)
      · simp [hc]
      · by_cases heq : x = other
        · subst heq
          simp [hc]
        · simp [heq]

def taken (chain : Chain) (done : List EventId) (eid : EventId) : Nat :=
  ((chain.cited eid).toFinset.filter (· ∈ done)).card

theorem taken_snoc_of_cited {done : List EventId} (ha : a ∉ done) (h : a ∈ chain.cited eid) :
    chain.taken (done ++ [a]) eid = chain.taken done eid + 1 := by
  have hinsert : (chain.cited eid).toFinset.filter (· ∈ done ++ [a]) =
      insert a ((chain.cited eid).toFinset.filter (· ∈ done)) := by
    ext x
    by_cases heq : x = a
    · subst heq
      simp [h]
    · simp [heq]
  rw [taken, hinsert, Finset.card_insert_of_notMem (by simp [ha]), taken]

theorem taken_snoc_of_not_cited {done : List EventId} (h : a ∉ chain.cited eid) :
    chain.taken (done ++ [a]) eid = chain.taken done eid := by
  unfold taken
  congr 1
  apply Finset.filter_congr
  intro x hx
  have hne : x ≠ a := by
    rintro rfl
    exact h (List.mem_toFinset.1 hx)
  simp [hne]

theorem taken_nil (eid : EventId) : chain.taken [] eid = 0 := by simp [taken]

theorem of_taken_eq {done : List EventId} (h : chain.taken done eid = (chain.cited eid).length) :
    (∀ a ∈ chain.cited eid, a ∈ done) ∧ (chain.cited eid).Nodup := by
  have hdedup := (List.dedup_sublist (chain.cited eid)).length_le
  have hcard := List.card_toFinset (chain.cited eid)
  have hfilter := Finset.card_filter_le (chain.cited eid).toFinset (· ∈ done)
  unfold taken at h
  constructor
  · intro a ha
    have hall : ((chain.cited eid).toFinset.filter (· ∈ done)).card = (chain.cited eid).toFinset.card := by omega
    exact Finset.card_filter_eq_iff.1 hall _ (List.mem_toFinset.2 ha)
  · have heq := (List.dedup_sublist (chain.cited eid)).eq_of_length (by omega)
    rw [← heq]
    exact List.nodup_dedup _

/-! ## The loop -/

/-- The counts are those of the cited events not taken yet, and the events with none are
taken or in the queue. -/
structure Sorting (chain : Chain) (degree : EventId → Nat) (queue done : List EventId) : Prop where
  nodup : (done ++ queue).Nodup
  count : ∀ x ∈ chain.ids, degree x + chain.taken done x = (chain.cited x).length
  free : ∀ x, x ∈ done ++ queue ↔ x ∈ chain.ids ∧ degree x = 0
  after : ∀ x ∈ done, ∀ a ∈ chain.cited x, done.idxOf a < done.idxOf x

section
variable {degree : EventId → Nat} {queue rest done : List EventId} {order : List EventId}

theorem Sorting.cited_of_free (h : Sorting chain degree queue done) (hx : eid ∈ chain.ids) (hd : degree eid = 0) :
    (∀ a ∈ chain.cited eid, a ∈ done) ∧ (chain.cited eid).Nodup := by
  have hcount := h.count eid hx
  rw [hd, Nat.zero_add] at hcount
  exact of_taken_eq hcount

theorem Sorting.degree_pos (h : Sorting chain degree queue done) (ha : a ∉ done) (hc : a ∈ chain.cited eid) :
    0 < degree eid := by
  by_contra hd
  have hfree := h.cited_of_free (mem_ids_of_cited hc).2 (Nat.eq_zero_of_not_pos hd)
  exact ha (hfree.1 a hc)

theorem Sorting.notMem_done (h : Sorting chain degree (a :: rest) done) : a ∉ done := by
  have hn := h.nodup
  rw [List.nodup_append] at hn
  intro hmem
  exact hn.2.2 a hmem a List.mem_cons_self rfl

theorem Sorting.pop_nodup (h : Sorting chain degree (a :: rest) done) (ho : order.Nodup) :
    (done ++ [a] ++ ((order.filter fun x => a ∈ chain.cited x ∧ degree x - 1 = 0).reverse ++ rest)).Nodup := by
  have hperm : (done ++ [a] ++ ((order.filter fun x => a ∈ chain.cited x ∧ degree x - 1 = 0).reverse ++ rest)).Perm
      ((order.filter fun x => a ∈ chain.cited x ∧ degree x - 1 = 0) ++ (done ++ a :: rest)) := by
    have hswap :=
      ((List.reverse_perm (order.filter fun x => a ∈ chain.cited x ∧ degree x - 1 = 0)).append_right rest)
    have hleft := (hswap.append_left (done ++ [a])).trans (List.perm_append_comm_assoc ..)
    simpa using hleft
  rw [hperm.nodup_iff, List.nodup_append]
  refine ⟨ho.filter _, h.nodup, ?_⟩
  rintro x hx y hy rfl
  have hc : a ∈ chain.cited x := (of_decide_eq_true (List.mem_filter.1 hx).2).1
  have hpos := h.degree_pos h.notMem_done hc
  have hzero := ((h.free x).1 hy).2
  omega

theorem Sorting.pop_after (h : Sorting chain degree (a :: rest) done) :
    ∀ x ∈ done ++ [a], ∀ b ∈ chain.cited x, (done ++ [a]).idxOf b < (done ++ [a]).idxOf x := by
  have hfree := (h.free a).1 (by simp)
  have hcited := h.cited_of_free hfree.1 hfree.2
  intro x hx b hb
  rcases List.mem_append.1 hx with hx | hx
  · have hlt := h.after x hx b hb
    have hb' : b ∈ done := List.idxOf_lt_length_iff.1 (hlt.trans (List.idxOf_lt_length_iff.2 hx))
    rw [List.idxOf_append_of_mem hb', List.idxOf_append_of_mem hx]
    exact hlt
  · obtain rfl := List.mem_singleton.1 hx
    have hb' := hcited.1 b hb
    rw [List.idxOf_append_of_mem hb', List.idxOf_append_of_notMem h.notMem_done]
    exact Nat.lt_add_right _ (List.idxOf_lt_length_iff.2 hb')

theorem Sorting.pop (h : Sorting chain degree (a :: rest) done) (ho : order.Perm chain.ids) (hn : chain.ids.Nodup) :
    Sorting chain (popAuthChain chain order a rest degree).2 (popAuthChain chain order a rest degree).1
      (done ++ [a]) := by
  have hdone := h.notMem_done
  rw [popAuthChain_eq ((h.free a).1 (by simp)).1 (ho.nodup_iff.2 hn)]
  refine ⟨h.pop_nodup (ho.nodup_iff.2 hn), ?_, ?_, h.pop_after⟩
  · intro x hx
    have hcount := h.count x hx
    by_cases hc : a ∈ chain.cited x
    · have hpos := h.degree_pos hdone hc
      simp only [ho.mem_iff.2 hx, hc, and_self, if_true, taken_snoc_of_cited hdone hc]
      omega
    · simp only [hc, and_false, if_false, taken_snoc_of_not_cited hc]
      exact hcount
  · intro x
    have hfree := h.free x
    simp only [List.mem_append, List.mem_cons, List.not_mem_nil, or_false, List.mem_reverse, List.mem_filter,
      decide_eq_true_eq, ho.mem_iff] at hfree ⊢
    by_cases hc : a ∈ chain.cited x
    · have hpos := h.degree_pos hdone hc
      have hx := (mem_ids_of_cited hc).2
      have hnot : ¬ (x ∈ done ∨ x = a ∨ x ∈ rest) := by
        intro hin
        have hzero := (hfree.1 hin).2
        omega
      simp only [hx, hc, true_and, and_self, if_true]
      tauto
    · simp only [hc, false_and, and_false, if_false]
      tauto

theorem Sorting.run (ho : order.Perm chain.ids) (hn : chain.ids.Nodup) (n : Nat)
    (h : Sorting chain degree queue done)
    (hlen : chain.ids.length ≤ done.length + n) :
    ∃ degree', Sorting chain degree' [] (done ++ sortAuthChain chain order n queue degree) := by
  induction n generalizing degree queue done with
  | zero =>
    have hsub : done ++ queue ⊆ chain.ids := fun x hx => ((h.free x).1 hx).1
    have hle := (h.nodup.subperm hsub).length_le
    have hnil : queue = [] := by
      rw [List.length_append] at hle
      exact List.eq_nil_of_length_eq_zero (by omega)
    subst hnil
    exact ⟨degree, by simpa [sortAuthChain] using h⟩
  | succ n ih =>
    cases queue with
    | nil => exact ⟨degree, by simpa [sortAuthChain] using h⟩
    | cons a rest =>
      have hlen' : chain.ids.length ≤ (done ++ [a]).length + n := by
        rw [List.length_append, List.length_singleton]
        omega
      obtain ⟨degree', hrun⟩ := ih (h.pop ho hn) hlen'
      refine ⟨degree', ?_⟩
      simpa [sortAuthChain] using hrun

theorem Sorting.start {degrees : List EventId} (hd : degrees.Perm chain.ids) (hn : chain.ids.Nodup) :
    Sorting chain (chainDegree chain) (degrees.filter fun eid => chainDegree chain eid = 0).reverse [] := by
  refine ⟨?_, ?_, ?_, ?_⟩
  · rw [List.nil_append, List.nodup_reverse]
    exact (hd.nodup_iff.2 hn).filter _
  · intro x _
    rw [chainDegree_eq, taken_nil, Nat.add_zero]
  · intro x
    simp [hd.mem_iff]
  · intro x hx
    cases hx

end

theorem sortedAuthChain_sorting {degrees order : List EventId} (hn : chain.ids.Nodup) (hd : degrees.Perm chain.ids)
    (ho : order.Perm chain.ids) : ∃ degree, Sorting chain degree [] (sortedAuthChain chain degrees order) := by
  have hlen : chain.ids.length ≤ ([] : List EventId).length + chain.length := by simp [ids]
  obtain ⟨degree, hrun⟩ := (Sorting.start hd hn).run ho hn chain.length hlen
  exact ⟨degree, by simpa [sortedAuthChain] using hrun⟩

theorem cites_induction (h : ∀ eid, ¬ TransGen chain.Cites eid eid) {P : EventId → Prop}
    (hstep : ∀ x ∈ chain.ids, (∀ a ∈ chain.cited x, P a) → P x) : ∀ x ∈ chain.ids, P x := by
  let Up : {x // x ∈ chain.ids} → {x // x ∈ chain.ids} → Prop := fun a x => TransGen chain.Cites x.1 a.1
  have htrans : IsTrans _ Up := ⟨fun _ _ _ hab hbc => hbc.trans hab⟩
  have hirrefl : Std.Irrefl Up := ⟨fun x => h x.1⟩
  have hwf : WellFounded Up := Finite.wellFounded_of_trans_of_irrefl Up
  intro x hx
  refine hwf.induction (C := fun x => P x.1) ⟨x, hx⟩ ?_
  intro y ih
  apply hstep y.1 y.2
  intro a ha
  exact ih ⟨a, (mem_ids_of_cited ha).1⟩ (TransGen.single ha)

theorem count_of_sorting {degree : EventId → Nat} {sorted : List EventId} (h : Sorting chain degree [] sorted) :
    sorted.count eid = if eid ∈ sorted then 1 else 0 := by
  have hn := h.nodup
  rw [List.append_nil] at hn
  split
  · next hmem => exact List.count_eq_one_of_mem hn hmem
  · next hmem => exact List.count_eq_zero_of_not_mem hmem

theorem inOrder_iff {degree : EventId → Nat} {sorted : List EventId}
    (hacyclic : ∀ eid, ¬ TransGen chain.Cites eid eid)
    (h : Sorting chain degree [] sorted) : chain.InOrder sorted ↔ ∀ eid ∈ chain.ids, (chain.cited eid).Nodup := by
  have hfree := h.free
  simp only [List.append_nil] at hfree
  constructor
  · rintro ⟨honce, -⟩ eid heid
    have hmem : eid ∈ sorted := by
      by_contra hnot
      have := honce eid heid
      rw [count_of_sorting h, if_neg hnot] at this
      cases this
    exact (h.cited_of_free heid ((hfree eid).1 hmem).2).2
  · intro hnodup
    have hall : ∀ x ∈ chain.ids, x ∈ sorted := by
      refine cites_induction (P := (· ∈ sorted)) hacyclic ?_
      intro x hx hcited
      have htaken : chain.taken sorted x = (chain.cited x).length := by
        rw [taken, Finset.filter_true_of_mem fun a ha => hcited a (List.mem_toFinset.1 ha),
          List.toFinset_card_of_nodup (hnodup x hx)]
      have hcount := h.count x hx
      rw [hfree x]
      exact ⟨hx, by omega⟩
    constructor
    · intro eid heid
      rw [count_of_sorting h, if_pos (hall eid heid)]
    · intro eid heid
      exact h.after eid (hall eid heid)

end Chain

theorem perm_reorder {A : Type} {xs : List A} {order : List Nat} (ho : order.Perm (List.range xs.length)) :
    (reorder xs order).Perm xs := by
  have hrange : ∀ ys : List A, (List.range ys.length).filterMap (fun i => ys[i]?) = ys := by
    intro ys
    induction ys with
    | nil => rfl
    | cons y ys ih =>
      rw [List.length_cons, List.range_succ_eq_map, List.filterMap_cons, List.filterMap_map]
      simpa [Function.comp_def] using ih
  have hperm := ho.filterMap fun i => xs[i]?
  rw [hrange xs] at hperm
  exact hperm

/-! ## The chain of a response -/

section
variable {plat : Platform} {room : RoomId} {v : RoomVersionId}

theorem Chain.nodup_replace {chain : Chain} (hn : chain.ids.Nodup) (eid : EventId) (x : Object × Pdu) :
    Chain.ids ((eid, x) :: chain.filter fun p => p.1 ≠ eid) |>.Nodup := by
  have hsub : ((chain.filter fun p => p.1 ≠ eid).map (·.1)).Sublist chain.ids := List.filter_sublist.map _
  rw [Chain.ids, List.map_cons, List.nodup_cons]
  refine ⟨?_, hsub.nodup hn⟩
  intro hmem
  obtain ⟨p, hp, heq⟩ := List.mem_map.1 hmem
  have hne := (List.mem_filter.1 hp).2
  simp [heq] at hne

theorem readAuthChain_exec {chain : Chain} (hn : chain.ids.Nodup) (raw : RawPdu) (s : Server) :
    ∃ (chain' : Chain) (s' : Server), (readAuthChain plat room v chain raw).exec s = (.ok chain', s') ∧
      chain'.ids.Nodup ∧ s'.world = s.world := by
  have hid : ((H.genEventIdCanonicalJson plat room v raw).exec s).2.world = s.world := by
    cases raw with
    | none => rfl
    | some value =>
      simp only [H.genEventIdCanonicalJson]
      cases plat.genEventId v value <;> rfl
  unfold readAuthChain
  rw [Call.exec_bind, Call.exec_attempt]
  cases hgen : ((H.genEventIdCanonicalJson plat room v raw).exec s).1 with
  | error e => exact ⟨chain, _, rfl, hn, hid⟩
  | ok p =>
    obtain ⟨eid, value⟩ := p
    simp only
    split
    · exact ⟨chain, _, rfl, hn, hid⟩
    · split
      · exact ⟨chain, _, rfl, hn, hid⟩
      · exact ⟨_, _, rfl, Chain.nodup_replace hn eid _, hid⟩

variable (plat room v) in
theorem readAuthChains_exec (chain : Chain) (hn : chain.ids.Nodup) (raws : List RawPdu) (s : Server) :
    ∃ (chain' : Chain) (s' : Server), (raws.foldlM (readAuthChain plat room v) chain).exec s = (.ok chain', s') ∧
      chain'.ids.Nodup ∧ s'.world = s.world := by
  induction raws generalizing chain s with
  | nil => exact ⟨chain, s, rfl, hn, rfl⟩
  | cons raw raws ih =>
    obtain ⟨next, s₁, hnext, hn₁, hw₁⟩ := readAuthChain_exec hn raw s
    obtain ⟨chain', s', hrest, hn', hw'⟩ := ih next hn₁ s₁
    refine ⟨chain', s', ?_, hn', hw'.trans hw₁⟩
    rw [List.foldlM_cons, Call.exec_bind, hnext]
    exact hrest

/-- What is sorted once the response is read. -/
def Chain.sortedFrom (chain : Chain) (s : Server) : List EventId :=
  sortedAuthChain chain (reorder chain.ids ((s.world s.clock).order chain.length))
    (reorder chain.ids ((s.world (s.clock + 1)).order chain.length))

/-- The events of an acyclic response are handled once each and in order exactly when none
of them lists an auth event of the response twice. -/
theorem auth_chain_in_order {recur : EventId → Object → H (Pdu × Object)} {origin : ServerName} {id : EventId}
    {incoming : Object} {s s₁ : Server} {raws : List RawPdu} {chain : Chain}
    (hfair : ∀ c n, ((s.world c).order n).Perm (List.range n))
    (hanswer : (s.world s.clock).eventAuth origin room id = some raws)
    (hread : (raws.foldlM (readAuthChain plat room v) []).exec (Write.tick.apply plat s) = (.ok chain, s₁))
    (hacyclic : ∀ eid, ¬ TransGen chain.Cites eid eid) :
    (∀ found, (fetchAuthChain plat recur origin room id v incoming found).exec s =
        ((chain.sortedFrom s₁).dedup.foldlM (handleAuthChain plat recur room id incoming chain) found).exec
          (Write.tick.apply plat (Write.tick.apply plat s₁))) ∧
      (chain.InOrder (chain.sortedFrom s₁) ↔ ∀ eid ∈ chain.ids, (chain.cited eid).Nodup) := by
  obtain ⟨chain', s', hread', hn, hworld⟩ :=
    readAuthChains_exec plat room v [] List.nodup_nil raws (Write.tick.apply plat s)
  rw [hread] at hread'
  obtain ⟨rfl, rfl⟩ : chain = chain' ∧ s₁ = s' := by
    cases hread'
    exact ⟨rfl, rfl⟩
  have hperm : ∀ c, (reorder chain.ids ((s₁.world c).order chain.length)).Perm chain.ids := by
    intro c
    apply perm_reorder
    rw [hworld, Chain.ids, List.length_map]
    exact hfair c _
  obtain ⟨degree, hsorting⟩ := Chain.sortedAuthChain_sorting hn (hperm s₁.clock) (hperm (s₁.clock + 1))
  refine ⟨?_, Chain.inOrder_iff hacyclic hsorting⟩
  intro found
  unfold fetchAuthChain
  rw [H.exec_ask, hanswer]
  simp only
  rw [Call.exec_bind, hread]
  rfl

end

/-! ## A response of two events -/

/-- An event and one that cites it as listed. -/
def citingChain (auth : List EventId) : List RawPdu :=
  [some (wireEvent "a" "m.room.name" "@u:b" (some "") [] [] []),
    some (wireEvent "b" "m.room.topic" "@u:b" (some "") [] auth [])]

def citingServer (auth : List EventId) : Server :=
  Server.plain fun _ => { World.plain with eventAuth := fun _ _ _ => some (citingChain auth) }

def readCiting (auth : List EventId) : Except HErr Chain × Server :=
  ((citingChain auth).foldlM (readAuthChain .plain "!r:a" .V11) []).exec
    (Write.tick.apply .plain (citingServer auth))

def citingRead (auth : List EventId) : Chain := (readCiting auth).1.toOption.getD []

theorem citingRead_acyclic {auth : List EventId} (hids : (citingRead auth).ids = ["$b", "$a"])
    (hfirst : (citingRead auth).cited "$a" = []) (hself : "$b" ∉ (citingRead auth).cited "$b") (eid : EventId) :
    ¬ TransGen (citingRead auth).Cites eid eid := by
  have hedge : ∀ x y, (citingRead auth).Cites x y → x = "$b" ∧ y = "$a" := by
    intro x y h
    have hmem := Chain.mem_ids_of_cited h
    rw [hids] at hmem
    simp only [List.mem_cons, List.not_mem_nil, or_false] at hmem
    obtain ⟨rfl | rfl, rfl | rfl⟩ := hmem
    · exact absurd h hself
    · rw [Chain.Cites, hfirst] at h
      cases h
    · exact ⟨rfl, rfl⟩
    · rw [Chain.Cites, hfirst] at h
      cases h
  have htrans : ∀ x y, TransGen (citingRead auth).Cites x y → x = "$b" ∧ y = "$a" := by
    intro x y h
    induction h with
    | single h => exact hedge _ _ h
    | tail _ h ih => exact ⟨ih.1, (hedge _ _ h).2⟩
  intro h
  obtain ⟨hb, ha⟩ := htrans eid eid h
  rw [hb] at ha
  exact absurd ha (by decide)

theorem auth_chain_in_order_single :
    (citingRead ["$a"]).InOrder ((citingRead ["$a"]).sortedFrom (readCiting ["$a"]).2) := by
  have hread : readCiting ["$a"] = (.ok (citingRead ["$a"]), (readCiting ["$a"]).2) := by rfl
  have hall := @auth_chain_in_order .plain "!r:a" .V11 (fun _ _ => throw (.database "")) "b" "$x" []
    (citingServer ["$a"])
    _ _ _ (fun _ _ => .refl _) rfl hread (citingRead_acyclic (by decide) (by decide) (by decide))
  apply hall.2.2
  decide

/-- An event that lists an auth event twice is left out. -/
theorem doubled_auth_event_left_out :
    ¬ ∀ (plat : Platform) (room : RoomId) (v : RoomVersionId) (s s₁ : Server) (raws : List RawPdu) (chain : Chain),
      (∀ c n, ((s.world c).order n).Perm (List.range n)) →
      (raws.foldlM (readAuthChain plat room v) []).exec s = (.ok chain, s₁) →
      (∀ eid, ¬ TransGen chain.Cites eid eid) → chain.InOrder (chain.sortedFrom s₁) := by
  intro h
  have hread : readCiting ["$a", "$a"] = (.ok (citingRead ["$a", "$a"]), (readCiting ["$a", "$a"]).2) := by rfl
  have hin := h .plain "!r:a" .V11 _ _ _ _ (fun _ _ => .refl _) hread
    (citingRead_acyclic (by decide) (by decide) (by decide))
  have hcount := hin.1 "$b" (by decide)
  exact absurd hcount (by decide)

end Congruent
