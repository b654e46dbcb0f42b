import Congruent.Separate

/-!
# The auth difference

The full conflicted set of the version-2 algorithm against its documentation.
The code asks for the auth chains of the conflicting events of each fork, the
documentation is about the chains of all its events: the two differ by what the
unconflicted state cites.
-/

namespace Congruent

/-! ## Auth chains -/

/-- `b` is in the recursive auth events of `a`. -/
def InChain (store : EventStore) (a b : EventId) : Prop :=
  Relation.TransGen (fun x y => y ∈ authEventsOf store x) a b

def ExactChain (store : EventStore) (authChainFetch : List EventId → List EventId) : Prop :=
  ∀ ids x, x ∈ authChainFetch ids ↔ ∃ id ∈ ids, InChain store id x

theorem fetch_eventId {store : EventStore} {ev : Pdu} (h : ev ∈ store.events) : store.fetch
    ev.eventId = some ev := by
  cases hf : store.fetch ev.eventId with
  | none => simpa using List.find?_eq_none.mp hf ev h
  | some ev' =>
    rw [List.inj_on_of_nodup_map store.nodup (store.mem_of_fetch hf) h (store.eventId_of_fetch hf)]

theorem authEventsOf_nil {store : EventStore} (id : EventId) :
    id ∈ store.events.map (·.eventId) ∨ authEventsOf store id = [] := by
  cases hf : store.fetch id with
  | none => exact Or.inr (by simp [authEventsOf, hf])
  | some ev => exact Or.inl (List.mem_map.mpr ⟨ev, store.mem_of_fetch hf, store.eventId_of_fetch hf⟩)

theorem searchFuel_enough (store : EventStore) (seeds : List EventId) :
    seeds.length + Worklist.remaining (authEventsOf store) (store.events.map (·.eventId)) [] ≤
      searchFuel store seeds := by
  have hrem : Worklist.remaining (authEventsOf store) (store.events.map (·.eventId)) [] =
      (store.events.map (·.authEvents.length)).sum := by
    unfold Worklist.remaining
    rw [List.map_map]
    congr 1
    refine List.map_congr_left fun ev hev => ?_
    simp [authEventsOf, fetch_eventId hev]
  rw [hrem]
  exact Nat.add_le_add_left (Nat.le_mul_self _) _

theorem authChainOf_exact (store : EventStore) : ExactChain store (authChainOf store) := by
  intro ids x
  unfold authChainOf
  rw [Worklist.mem_visit _ _ authEventsOf_nil (searchFuel_enough store _)]
  constructor
  · rintro ⟨s, hs, hr⟩
    obtain ⟨id, hid, hs⟩ := List.mem_flatMap.mp hs
    exact ⟨id, hid, Relation.TransGen.head' hs hr⟩
  · rintro ⟨id, hid, hr⟩
    obtain ⟨s, hs, hr⟩ := Relation.TransGen.head'_iff.mp hr
    exact ⟨s, List.mem_flatMap.mpr ⟨id, hid, hs⟩, hr⟩

/-! ## The difference of chains -/

theorem mem_getAuthChainDiff (chains : List (List EventId)) (x : EventId) :
    x ∈ getAuthChainDiff chains ↔ (∃ chain ∈ chains, x ∈ chain) ∧ ¬ ∀ chain ∈ chains, x ∈ chain := by
  unfold getAuthChainDiff
  split
  · rename_i a b
    simp only [List.mem_append, List.mem_filter, decide_eq_true_eq, List.mem_cons, List.not_mem_nil, or_false,
      exists_eq_or_imp, exists_eq_left, forall_eq_or_imp, forall_eq]
    tauto
  · simp
  · rename_i first rest _
    simp only [List.mem_filter, mem_collect, List.mem_flatten, decide_eq_true_eq, List.all_eq_true]
    refine and_congr_right fun _ => not_congr ?_
    simp

section
variable (store : EventStore) (sets : List (StateMap EventId))

def ConflictChain (s : StateMap EventId) (x : EventId) : Prop :=
  ∃ k id, s.lookup k = some id ∧ InConflict sets k id ∧ InChain store id x

/-- The auth chain of all entries of a set. -/
def FullChain (s : StateMap EventId) (x : EventId) : Prop := ∃ k id, s.lookup k = some id ∧ InChain store id x

def UnconflictedChain (x : EventId) : Prop :=
  ∃ k id, sets ≠ [] ∧ (∀ s ∈ sets, s.lookup k = some id) ∧ InChain store id x

/-- In the chain of some set but not of all. -/
def Differs (chain : StateMap EventId → EventId → Prop) (x : EventId) : Prop :=
  (∃ s ∈ sets, chain s x) ∧ ¬ ∀ s ∈ sets, chain s x

variable {store sets}

theorem differs_congr {chain chain' : StateMap EventId → EventId → Prop} {x : EventId}
    (h : ∀ s ∈ sets, chain s x ↔ chain' s x) : Differs sets chain x ↔ Differs sets chain' x := by
  unfold Differs
  constructor
  · rintro ⟨⟨s, hs, hx⟩, hn⟩
    exact ⟨⟨s, hs, (h s hs).mp hx⟩, fun hall => hn fun s hs => (h s hs).mpr (hall s hs)⟩
  · rintro ⟨⟨s, hs, hx⟩, hn⟩
    exact ⟨⟨s, hs, (h s hs).mpr hx⟩, fun hall => hn fun s hs => (h s hs).mp (hall s hs)⟩

theorem mem_chainDiff (chainOf : StateMap EventId → List EventId) (x : EventId) :
    x ∈ getAuthChainDiff (sets.map chainOf) ↔ Differs sets (fun s x => x ∈ chainOf s) x := by
  rw [mem_getAuthChainDiff]
  simp only [List.mem_map, exists_exists_and_eq_and, forall_exists_index, and_imp,
    forall_apply_eq_imp_iff₂, Differs]

theorem fullChain_iff {s : StateMap EventId} (hs : s ∈ sets) (x : EventId) :
    FullChain store s x ↔ ConflictChain store sets s x ∨ UnconflictedChain store sets x := by
  constructor
  · rintro ⟨k, id, hl, hc⟩
    by_cases hall : ∀ s' ∈ sets, s'.lookup k = some id
    · exact Or.inr ⟨k, id, List.ne_nil_of_mem hs, hall, hc⟩
    · exact Or.inl ⟨k, id, hl, ⟨⟨s, hs, hl⟩, hall⟩, hc⟩
  · rintro (⟨k, id, hl, -, hc⟩ | ⟨k, id, -, hall, hc⟩)
    · exact ⟨k, id, hl, hc⟩
    · exact ⟨k, id, hall s hs, hc⟩

/-- The documented difference is the code's less the chains of the unconflicted
state. -/
theorem differs_full_iff (x : EventId) :
    Differs sets (FullChain store) x ↔
      Differs sets (ConflictChain store sets) x ∧ ¬ UnconflictedChain store sets x := by
  unfold Differs
  constructor
  · rintro ⟨⟨s, hs, hf⟩, hn⟩
    have hu : ¬ UnconflictedChain store sets x := fun hu => hn fun s hs => (fullChain_iff hs x).mpr (Or.inr hu)
    refine ⟨⟨⟨s, hs, ((fullChain_iff hs x).mp hf).resolve_right hu⟩, fun hall => hn fun s hs => ?_⟩, hu⟩
    exact (fullChain_iff hs x).mpr (Or.inl (hall s hs))
  · rintro ⟨⟨⟨s, hs, hf⟩, hn⟩, hu⟩
    refine ⟨⟨s, hs, (fullChain_iff hs x).mpr (Or.inl hf)⟩, fun hall => hn fun s hs => ?_⟩
    exact ((fullChain_iff hs x).mp (hall s hs)).resolve_right hu

/-! ## The full conflicted set -/

variable {ch : Choices} {authChainFetch : List EventId → List EventId}

theorem mem_forkConflicts {s : StateMap EventId} (hs : s ∈ sets) (id : EventId) :
    id ∈ forkConflicts ch (separate ch sets).2 s ↔ ∃ k, s.lookup k = some id ∧ InConflict sets k id := by
  unfold forkConflicts
  rw [List.mem_filterMap]
  constructor
  · rintro ⟨e, he, h⟩
    split at h
    · rename_i hk
      cases h
      obtain ⟨v, hv⟩ := (separate_conflicting_key ch sets e.1).mp hk
      have hl : s.lookup e.1 = some e.2 := AList.mem_lookup_iff.mpr ((mem_perm ch 3 _ e).mp he)
      exact ⟨e.1, hl, inConflict_of_key hv hs hl⟩
    · cases h
  · rintro ⟨k, hl, hc⟩
    refine ⟨⟨k, id⟩, (mem_perm ch 3 _ _).mpr (AList.mem_lookup_iff.mp hl), ?_⟩
    rw [if_pos ((separate_conflicting_key ch sets k).mpr ⟨id, hc⟩)]

variable (ch) in
theorem mem_codeDiff (hexact : ExactChain store authChainFetch) (x : EventId) :
    x ∈ getAuthChainDiff (sets.map fun s => authChainFetch (forkConflicts ch (separate ch sets).2 s)) ↔
      Differs sets (ConflictChain store sets) x := by
  have hchain : ∀ s ∈ sets, x ∈ authChainFetch (forkConflicts ch (separate ch sets).2 s) ↔
      ConflictChain store sets s x := by
    intro s hs
    rw [hexact]
    simp only [mem_forkConflicts hs, ConflictChain]
    constructor
    · rintro ⟨id, ⟨k, hl, hc⟩, hx⟩
      exact ⟨k, id, hl, hc, hx⟩
    · rintro ⟨k, id, hl, hc, hx⟩
      exact ⟨id, ⟨k, hl, hc⟩, hx⟩
  exact (mem_chainDiff _ x).trans (differs_congr hchain)

theorem mem_existingState (ids : List EventId) (x : EventId) :
    x ∈ existingState store ids ↔ x ∈ ids ∧ ∃ ev, store.fetch x = some ev ∧ ev.stateKey.isSome = true := by
  unfold existingState
  rw [List.mem_filter, mem_collect]
  refine and_congr_right fun _ => ?_
  cases store.fetch x <;> simp

variable (sets ch) in
theorem mem_allConflicted_V2 (hexact : ExactChain store authChainFetch) :
    ∃ conflicted, allConflicted ch store authChainFetch .V2 sets (separate ch sets).2 = .ok conflicted ∧
      ∀ x, x ∈ conflicted ↔ (Differs sets (ConflictChain store sets) x ∨ ∃ k, InConflict sets k x) ∧
        ∃ ev, store.fetch x = some ev ∧ ev.stateKey.isSome = true := by
  refine ⟨_, rfl, fun x => ?_⟩
  simp only [mem_perm, mem_existingState, List.mem_append, mem_codeDiff ch hexact, mem_conflictedIds]

end

def Live (store : EventStore) (x : EventId) : Prop := ∃ ev, store.fetch x = some ev ∧ ev.rejected = false

def IsStateEvent (store : EventStore) (x : EventId) : Prop :=
  ∃ ev, store.fetch x = some ev ∧ ev.stateKey.isSome = true

/-- The live part of the full conflicted set is the documented one: the entries
in conflict and the difference of the full auth chains. -/
def ConflictedAsDocumented (ch : Choices) (store : EventStore) (authChainFetch : List EventId → List EventId)
    (version : StateResolutionVersion) (sets : List (StateMap EventId)) : Prop :=
  ∃ conflicted, allConflicted ch store authChainFetch version sets (separate ch sets).2 = .ok conflicted ∧
    ∀ x, (x ∈ conflicted ∧ Live store x) ↔
      Live store x ∧ ((∃ k, InConflict sets k x) ∨ Differs sets (FullChain store) x)

/-- The full conflicted set is the documented one exactly when what belongs to
it are state events, and no state event that only the chains of conflicting
entries tell apart is cited by the unconflicted state. -/
theorem allConflicted_documented_iff (ch : Choices) (store : EventStore)
    (authChainFetch : List EventId → List EventId) (hexact : ExactChain store authChainFetch)
    (roomVersion : RoomVersionId) (hv : stateresVersion roomVersion = .V2) (sets : List (StateMap EventId)) :
    ConflictedAsDocumented ch store authChainFetch (stateresVersion roomVersion) sets ↔
      (∀ x, Live store x → ((∃ k, InConflict sets k x) ∨ Differs sets (FullChain store) x) → IsStateEvent store x) ∧
        ∀ x, Live store x → IsStateEvent store x → (¬ ∃ k, InConflict sets k x) →
          Differs sets (ConflictChain store sets) x → ¬ UnconflictedChain store sets x := by
  rw [hv]
  obtain ⟨conflicted, hok, hmem⟩ := mem_allConflicted_V2 sets ch hexact
  constructor
  · rintro ⟨conflicted', hok', h⟩
    rw [hok] at hok'
    cases hok'
    refine ⟨fun x hlive hx => ?_, fun x hlive hst hnc hd hu => ?_⟩
    · exact ((hmem x).mp ((h x).mpr ⟨hlive, hx⟩).1).2
    · rcases ((h x).mp ⟨(hmem x).mpr ⟨Or.inl hd, hst⟩, hlive⟩).2 with hc | hf
      · exact hnc hc
      · exact ((differs_full_iff x).mp hf).2 hu
  · rintro ⟨hstate, hcited⟩
    refine ⟨conflicted, hok, fun x => ?_⟩
    rw [hmem x]
    constructor
    · rintro ⟨⟨hx, hst⟩, hlive⟩
      refine ⟨hlive, ?_⟩
      by_cases hc : ∃ k, InConflict sets k x
      · exact Or.inl hc
      · have hd := hx.resolve_right hc
        exact Or.inr ((differs_full_iff x).mpr ⟨hd, hcited x hlive hst hc hd⟩)
    · rintro ⟨hlive, hx⟩
      refine ⟨⟨?_, hstate x hlive hx⟩, hlive⟩
      rcases hx with hc | hf
      · exact Or.inr hc
      · exact Or.inl ((differs_full_iff x).mp hf).1

/-- On the fork of `forkStore` both rivals have the same auth chain, and the set
is the documented one. -/
theorem allConflicted_documented_fork :
    ConflictedAsDocumented inOrder forkStore (authChainOf forkStore) (stateresVersion .V2)
      [forkSet "$j1", forkSet "$j2"] := by
  refine (allConflicted_documented_iff inOrder forkStore (authChainOf forkStore)
    (authChainOf_exact forkStore) .V2 rfl
    [forkSet "$j1", forkSet "$j2"]).mpr ⟨fun x hlive _ => ?_, fun x _ _ _ hd => ?_⟩
  · obtain ⟨ev, hf, -⟩ := hlive
    have hall : ∀ ev ∈ forkStore.events, ev.stateKey.isSome = true := by decide
    exact ⟨ev, hf, hall ev (EventStore.mem_of_fetch hf)⟩
  · have hnil : getAuthChainDiff ([forkSet "$j1", forkSet "$j2"].map fun s => authChainOf forkStore
        (forkConflicts inOrder (separate inOrder [forkSet "$j1", forkSet "$j2"]).2 s)) = [] := by decide
    have := (mem_codeDiff inOrder (authChainOf_exact forkStore) x).mpr hd
    rw [hnil] at this
    cases this

/-! ## A power-levels event cited by one side and by the topic -/

/-- Two rival join rules, one under the old and one under the new power levels,
and a topic under the new ones. -/
def topicStore : EventStore where
  events :=
    [stateEvent "$c" "@alice:a" .roomCreate "" [("creator", .str "@alice:a")] [],
      stateEvent "$ma" "@alice:a" .roomMember "@alice:a" [("membership", .str "join")] ["$c"],
      stateEvent "$p1" "@alice:a" .roomPowerLevels "" [("users", .obj [("@alice:a", .num 100)])] ["$c", "$ma"],
      stateEvent "$p2" "@alice:a" .roomPowerLevels "" [("users", .obj [("@alice:a", .num 90)])]
        ["$c", "$ma", "$p1"],
      stateEvent "$t" "@alice:a" (.other "m.room.topic") "" [("topic", .str "x")] ["$c", "$ma", "$p2"],
      stateEvent "$j1" "@alice:a" .roomJoinRules "" [("join_rule", .str "invite")] ["$c", "$ma", "$p1"],
      stateEvent "$j2" "@alice:a" .roomJoinRules "" [("join_rule", .str "public")] ["$c", "$ma", "$p2"]]
  nodup := by decide

def topicSet (joinRules : EventId) : StateMap EventId :=
  AList.insert (.roomJoinRules, "") joinRules <| AList.insert (.roomCreate, "") "$c" <|
    AList.insert (.roomMember, "@alice:a") "$ma" <| AList.insert (.other "m.room.topic", "") "$t" <|
    AList.insert (.roomPowerLevels, "") "$p2" ∅

/-- The new power levels are in the auth chain of both state sets, and the code
still puts them in the full conflicted set. -/
theorem allConflicted_extra_event :
    ExactChain topicStore (authChainOf topicStore) ∧
      ¬ ConflictedAsDocumented inOrder topicStore (authChainOf topicStore) (stateresVersion .V2)
        [topicSet "$j1", topicSet "$j2"] := by
  refine ⟨authChainOf_exact topicStore, ?_⟩
  rintro ⟨conflicted, hok, h⟩
  have hp2 : (allConflicted inOrder topicStore (authChainOf topicStore) (stateresVersion .V2)
      [topicSet "$j1", topicSet "$j2"] (separate inOrder [topicSet "$j1", topicSet "$j2"]).2).toOption.any
        (fun l => "$p2" ∈ l) = true := by decide
  rw [hok] at hp2
  have hlive : Live topicStore "$p2" := ⟨_, rfl, rfl⟩
  rcases ((h "$p2").mp ⟨by simpa [Except.toOption] using hp2, hlive⟩).2 with hc | hd
  · have := (mem_conflictedIds inOrder [topicSet "$j1", topicSet "$j2"] "$p2").mpr hc
    exact absurd this (by decide)
  · have hcited : InChain topicStore "$t" "$p2" := Relation.TransGen.single (by decide)
    refine hd.2 fun s hs => ⟨(.other "m.room.topic", ""), "$t", ?_, hcited⟩
    simp only [List.mem_cons, List.not_mem_nil, or_false] at hs
    rcases hs with rfl | rfl
    · decide
    · decide

end Congruent
