import Congruent.StateRes

/-!
# Soundness of resolution

Every entry of a resolved state is unconflicted, or an event of the full
conflicted set that passed its auth check when it was applied.
-/

namespace Congruent

/-! ## The event store -/

theorem EventStore.eventId_of_fetch {store : EventStore} {id : EventId} {ev : Pdu} (h : store.fetch id = some ev) :
    ev.eventId = id := by
  simpa using List.find?_some h

theorem EventStore.mem_of_fetch {store : EventStore} {id : EventId} {ev : Pdu} (h : store.fetch id = some ev) :
    ev ∈ store.events :=
  List.mem_of_find?_eq_some h

theorem firstPowerLevels_some {store : EventStore} {aids : List EventId} {pl : Pdu}
    (h : firstPowerLevels store aids = some pl) :
    ∃ aid ∈ aids, store.fetch aid = some pl ∧ isTypeAndKey pl .roomPowerLevels "" = true := by
  obtain ⟨aid, hmem, h⟩ := List.exists_of_findSome?_eq_some h
  obtain ⟨hf, hp⟩ := Option.filter_eq_some_iff.mp h
  exact ⟨aid, hmem, hf, hp⟩

theorem mem_collect {α : Type} [DecidableEq α] (l : List α) (x : α) : x ∈ collect l ↔ x ∈ l := by
  have : ∀ (l acc : List α), x ∈ l.foldl (fun acc x => if x ∈ acc then acc else acc ++ [x]) acc ↔
      x ∈ acc ∨ x ∈ l := by
    intro l
    induction l with
    | nil => simp
    | cons y l ih =>
      intro acc
      rw [List.foldl_cons, ih]
      by_cases hy : y ∈ acc
      · rw [if_pos hy, List.mem_cons]
        refine ⟨Or.imp_right Or.inr, fun h => ?_⟩
        rcases h with h | rfl | h
        · exact Or.inl h
        · exact Or.inl hy
        · exact Or.inr h
      · rw [if_neg hy, List.mem_append, List.mem_singleton, List.mem_cons, or_assoc]
  simpa [collect] using this l []

theorem collect_nodup {α : Type} [DecidableEq α] (l : List α) : (collect l).Nodup := by
  have : ∀ (l acc : List α), acc.Nodup →
      (l.foldl (fun acc x => if x ∈ acc then acc else acc ++ [x]) acc).Nodup := by
    intro l
    induction l with
    | nil => exact fun _ h => h
    | cons y l ih =>
      intro acc hacc
      rw [List.foldl_cons]
      refine ih _ ?_
      by_cases hy : y ∈ acc
      · rwa [if_pos hy]
      · rw [if_neg hy]
        exact List.nodup_append.mpr ⟨hacc, List.nodup_singleton y, fun a ha b hb => by
          rw [List.mem_singleton.mp hb]; rintro rfl; exact hy ha⟩
  exact this l [] List.nodup_nil

/-! ## Sorts only reorder -/

theorem mem_of_isGreedy {α K : Type} [LinearOrder K] {ready : List α → α → Prop} {key : α → K} :
    ∀ {done l : List α}, Greedy.IsGreedy ready key done l → ∀ x ∈ l, ∃ done', ready done' x
  | _, [], _, _, h => by cases h
  | _, y :: l, .pick hy _ hl, x, h => by
    rcases List.mem_cons.mp h with rfl | h
    · exact ⟨_, hy⟩
    · exact mem_of_isGreedy hl x h

theorem mem_kahnSort {Id K : Type} [DecidableEq Id] [LinearOrder K] {nodes : List (Node Id K)}
    (hn : (nodes.map (·.id)).Nodup) {key : Id → K} (hkey : ∀ n ∈ nodes, n.key = key n.id) {x : Id}
    (h : x ∈ kahnSort nodes) : x ∈ nodes.map (·.id) := by
  obtain ⟨l₁, l₂, he, hg, -, hm, -⟩ := kahnSort_greedy hn hkey
  rw [he, List.mem_append] at h
  rcases h with h | h
  · obtain ⟨done, hr⟩ := mem_of_isGreedy hg x h
    exact hr.1
  · exact ((hm x).mp h).1

theorem mapM_ok {ε α β : Type} {f : α → Except ε β} : ∀ {l : List α} {r : List β}, l.mapM f = .ok r →
    List.Forall₂ (fun a b => f a = .ok b) l r
  | [], r, h => by cases h; exact .nil
  | a :: l, r, h => by
    rw [List.mapM_cons] at h
    obtain ⟨b, hb, h⟩ := bind_eq_ok.mp h
    obtain ⟨bs, hbs, h⟩ := bind_eq_ok.mp h
    cases h
    exact .cons hb (mapM_ok hbs)

section
variable {ch : Choices} {site : Nat} {graph : List (EventId × List EventId)}
  {keyFn : EventId → Except Error (Int × Nat)}

theorem mem_perm (ch : Choices) (site : Nat) {α : Type} (l : List α) (x : α) : x ∈ ch.perm site l ↔ x ∈ l :=
  (ch.perm_perm site l).mem_iff

def keyOf (keyFn : EventId → Except Error (Int × Nat)) (id : EventId) : PowerKey :=
  match keyFn id with
  | .ok (level, ts) => powerKey level ts id
  | .error _ => powerKey 0 0 id

theorem sortNode_ok {id : EventId} {n : Node EventId PowerKey} (h : sortNode ch site graph keyFn id = .ok n) :
    n.id = id ∧ n.parents = ch.perm site ((List.lookup id graph).getD []) ∧ n.key = keyOf keyFn id := by
  unfold sortNode at h
  obtain ⟨p, hp, h⟩ := bind_eq_ok.mp h
  cases h
  exact ⟨rfl, rfl, by simp [keyOf, hp]⟩

theorem sortNodes_ids {ids : List EventId} {nodes : List (Node EventId PowerKey)}
    (h : List.Forall₂ (fun id n => sortNode ch site graph keyFn id = .ok n) ids nodes) :
    nodes.map (·.id) = ids := by
  induction h with
  | nil => rfl
  | cons hid _ ih => rw [List.map_cons, ih, (sortNode_ok hid).1]

theorem lexSort_ok {l : List EventId} (h : lexicographicalTopologicalSort ch site graph keyFn = .ok l) :
    ∃ nodes, l = kahnSort nodes ∧ nodes.map (·.id) = graphIds ch site graph ∧
      ∀ n ∈ nodes, n.parents = ch.perm (site + 2) ((List.lookup n.id graph).getD []) ∧
        n.key = keyOf keyFn n.id := by
  unfold lexicographicalTopologicalSort at h
  obtain ⟨nodes, hnodes, h⟩ := bind_eq_ok.mp h
  cases h
  have hf := mapM_ok hnodes
  refine ⟨nodes, rfl, sortNodes_ids hf, fun n hn => ?_⟩
  obtain ⟨i, hi, rfl⟩ := List.getElem_of_mem hn
  have := (List.forall₂_iff_get.mp hf).2 i (by rw [hf.length_eq]; exact hi) hi
  obtain ⟨hid, hp, hk⟩ := sortNode_ok this
  rw [List.get_eq_getElem] at hid hp hk
  rw [hid]
  exact ⟨hp, hk⟩

theorem mem_graphIds (x : EventId) : x ∈ graphIds ch site graph ↔ ∃ p ∈ graph, x = p.1 ∨ x ∈ p.2 := by
  unfold graphIds
  simp only [mem_collect, List.mem_flatMap, List.mem_cons, mem_perm]

theorem mem_lexSort {l : List EventId} (h : lexicographicalTopologicalSort ch site graph keyFn = .ok l)
    {x : EventId} (hx : x ∈ l) : x ∈ graphIds ch site graph := by
  obtain ⟨nodes, rfl, hids, hn⟩ := lexSort_ok h
  have hnd : (nodes.map (·.id)).Nodup := by rw [hids]; exact collect_nodup _
  rw [← hids]
  exact mem_kahnSort hnd (fun n hm => (hn n hm).2) hx

end

section
variable {c : Codec} {ch : Choices} {site : Nat} {store : EventStore} {conflicted : List EventId}

theorem powerGraph_subset {eventsToSort : List EventId} (hs : eventsToSort ⊆ conflicted)
    {p : EventId × List EventId} (hp : p ∈ powerGraph store conflicted eventsToSort) :
    p.1 ∈ conflicted ∧ p.2 ⊆ conflicted := by
  have hedge : ∀ id, collect ((authEventsOf store id).filter (· ∈ conflicted)) ⊆ conflicted := fun id x hx => by
    simpa using (List.mem_filter.mp ((mem_collect _ x).mp hx)).2
  obtain ⟨id, hid, rfl⟩ := List.mem_map.mp hp
  refine ⟨?_, hedge id⟩
  rcases Worklist.visit_sound _ _ _ _ _ hid with h | ⟨s, hs', hr⟩
  · cases h
  · induction hr with
    | refl => exact hs hs'
    | tail _ hb _ => exact hedge _ hb

theorem mem_powerSort {eventsToSort sorted : List EventId} {context : Option PowerLevelsContentFields}
    {caches caches' : PlCaches} (hs : eventsToSort ⊆ conflicted)
    (h : reverseTopologicalPowerSort c ch site store eventsToSort conflicted context caches =
      .ok (sorted, caches')) :
    sorted ⊆ conflicted := by
  unfold reverseTopologicalPowerSort at h
  obtain ⟨l, hl, h⟩ := bind_eq_ok.mp h
  cases h
  intro x hx
  obtain ⟨p, hp, hx⟩ := (mem_graphIds x).mp (mem_lexSort hl hx)
  have := powerGraph_subset hs hp
  rcases hx with rfl | hx
  · exact this.1
  · exact this.2 hx

theorem mem_dedupAfter {α κ : Type} [DecidableEq κ] (f : α → κ) : ∀ (l : List α) (prev : κ),
    dedupAfter f prev l ⊆ l
  | [], _ => fun _ h => h
  | a :: l, prev => by
    unfold dedupAfter
    split
    · exact fun x hx => List.mem_cons_of_mem _ (mem_dedupAfter f l prev hx)
    · exact List.cons_subset_cons _ (mem_dedupAfter f l (f a))

theorem mem_dedupByKey {α κ : Type} [DecidableEq κ] (f : α → κ) : ∀ (l : List α), dedupByKey f l ⊆ l
  | [] => fun _ h => h
  | a :: l => List.cons_subset_cons _ (mem_dedupAfter f l (f a))

theorem mem_mainlineKeys : ∀ (ids : List EventId) (depths : AList fun _ : EventId => Nat),
    ∀ k ∈ mainlineKeys store ids depths, k.2.2 ∈ ids
  | [], _, _, h => by cases h
  | id :: ids, depths, k, h => by
    unfold mainlineKeys at h
    split at h
    · exact List.mem_cons_of_mem _ (mem_mainlineKeys ids depths k h)
    · rcases List.mem_cons.mp h with rfl | h
      · exact List.mem_cons_self
      · exact List.mem_cons_of_mem _ (mem_mainlineKeys ids _ k h)

theorem mem_mainlineSort {toSort sorted : List EventId} {powerLevels : Option EventId}
    (h : mainlineSort store toSort powerLevels = .ok sorted) : sorted ⊆ toSort := by
  unfold mainlineSort at h
  split at h
  · cases h; exact List.nil_subset _
  split at h
  · cases h
  cases h
  intro x hx
  obtain ⟨k, hk, rfl⟩ := List.mem_map.mp (mem_dedupByKey _ _ hx)
  exact mem_mainlineKeys toSort _ k ((List.mem_insertionSort _).mp hk)

end

/-! ## Passes of auth checks -/

section
variable (c : Codec) (store : EventStore) (v : RoomVersion)

/-- The create event of a check: that of the pass, else that of the state checked against;
a create event is its own. -/
def createFor (pass : AuthPass) (ev : Pdu) (authState : AuthState) : Option Pdu :=
  if ev.kind = .roomCreate then some ev else pass.createEvent.or (authState.fetchState .roomCreate "")

def AuthPassed (pass : AuthPass) (ev : Pdu) : Prop :=
  ∃ authTypes authState create, authTypesForEvent c ev.kind ev.sender ev.stateKey ev.content v = .ok authTypes ∧
    authStateFor store v pass ev authTypes = .ok (some authState) ∧ createFor pass ev authState = some create ∧
    authCheck c v ev authState.thirdPartyInvite authState.fetchState create = .ok true

/-- The event is one of a pass, and passed its check against what the events
before it had resolved. -/
def Applied (start : AuthPass) (events : List Pdu) (ev : Pdu) : Prop :=
  ∃ before after pass, events = before ++ ev :: after ∧ authPass c store v start before = .ok pass ∧
    AuthPassed c store v pass ev

variable {c store v}

theorem authDecision_true {pass : AuthPass} {ev : Pdu} {create : Option Pdu}
    (h : authDecision c store v pass ev = .ok (true, create)) : AuthPassed c store v pass ev := by
  unfold authDecision at h
  split at h
  · cases h
  split at h
  · cases h
  rename_i authTypes htypes
  obtain ⟨authState?, hstate, h⟩ := bind_eq_ok.mp h
  split at h
  · cases h
  rename_i authState
  simp only at h
  split at h
  · cases h
  rename_i create' hcreate
  obtain ⟨b, hb, h⟩ := bind_eq_ok.mp h
  cases h
  exact ⟨authTypes, authState, create', htypes, hstate, hcreate, hb⟩

theorem authStep_ok {pass pass' : AuthPass} {ev : Pdu} (h : authStep c store v pass ev = .ok pass') :
    pass'.resolved = pass.resolved ∨ ∃ key, ev.stateKey = some key ∧
      pass'.resolved = pass.resolved.insert (ev.kind, key) ev.eventId ∧ AuthPassed c store v pass ev := by
  unfold authStep at h
  obtain ⟨⟨allowed, create⟩, hd, h⟩ := bind_eq_ok.mp h
  simp only at h
  split at h
  · rename_i _ key hkey
    cases h
    exact Or.inr ⟨key, hkey, rfl, authDecision_true hd⟩
  · cases h
    exact Or.inl rfl

theorem authPass_entry : ∀ {events : List Pdu} {start pass : AuthPass},
    authPass c store v start events = .ok pass → ∀ {key : TypeStateKey} {id : EventId},
    pass.resolved.lookup key = some id →
    start.resolved.lookup key = some id ∨ ∃ ev ∈ events, ev.eventId = id ∧
      (∃ stateKey, ev.stateKey = some stateKey ∧ key = (ev.kind, stateKey)) ∧ Applied c store v start events ev
  | [], start, pass, h, key, id, hl => by
    cases h
    exact Or.inl hl
  | ev :: events, start, pass, h, key, id, hl => by
    obtain ⟨mid, hmid, hrest⟩ := bind_eq_ok.mp h
    rcases authPass_entry hrest hl with hl | ⟨ev', hmem, hid, hkey, before, after, p, he, hp, hpassed⟩
    · rcases authStep_ok hmid with hr | ⟨stateKey, hsk, hr, hpassed⟩
      · exact Or.inl (hr ▸ hl)
      · rw [hr] at hl
        by_cases hk : key = (ev.kind, stateKey)
        · subst hk
          rw [AList.lookup_insert] at hl
          exact Or.inr ⟨ev, List.mem_cons_self, Option.some.inj hl, ⟨stateKey, hsk, rfl⟩, [], events, start, rfl,
            rfl, hpassed⟩
        · rw [AList.lookup_insert_ne hk] at hl
          exact Or.inl hl
    · refine Or.inr ⟨ev', List.mem_cons_of_mem _ hmem, hid, hkey, ev :: before, after,
        p, by rw [he]; rfl, ?_, hpassed⟩
      exact bind_eq_ok.mpr ⟨mid, hmid, hp⟩

theorem mem_eventsToCheck : ∀ {ids : List EventId} {events : List Pdu}, eventsToCheck store ids = .ok events →
    ∀ ev ∈ events, ev.eventId ∈ ids ∧ store.fetch ev.eventId = some ev ∧ ev.rejected = false
  | [], _, h, ev, hev => by cases h; cases hev
  | id :: ids, events, h, ev, hev => by
    unfold eventsToCheck at h
    split at h
    · cases h
    rename_i first hfirst
    obtain ⟨rest, hrest, h⟩ := bind_eq_ok.mp h
    cases h
    have ih := mem_eventsToCheck hrest
    have hcase : ev ∈ rest ∨ (ev = first ∧ first.rejected = false) := by
      by_cases hr : first.rejected = true
      · rw [if_pos hr] at hev
        exact Or.inl hev
      · rw [if_neg hr] at hev
        rcases List.mem_cons.mp hev with rfl | hev
        · exact Or.inr ⟨rfl, by simpa using hr⟩
        · exact Or.inl hev
    rcases hcase with hev | ⟨rfl, hr⟩
    · exact ⟨List.mem_cons_of_mem _ (ih ev hev).1, (ih ev hev).2⟩
    · rw [EventStore.eventId_of_fetch hfirst]
      exact ⟨List.mem_cons_self, hfirst, hr⟩

/-- What an entry that a pass over `ids` adds satisfies. -/
def PassEntry (c : Codec) (store : EventStore) (v : RoomVersion) (ids : List EventId) (initial : StateMap EventId)
    (key : TypeStateKey) (id : EventId) : Prop :=
  ∃ ev events, id ∈ ids ∧ store.fetch id = some ev ∧ ev.rejected = false ∧
    (∃ stateKey, ev.stateKey = some stateKey ∧ key = (ev.kind, stateKey)) ∧
    eventsToCheck store ids = .ok events ∧
    Applied c store v ⟨initial, hoistedCreate c store v events⟩ events ev

theorem iterativeAuthCheck_entry {ids : List EventId} {initial resolved : StateMap EventId}
    (h : iterativeAuthCheck c store v ids initial = .ok resolved) {key : TypeStateKey} {id : EventId}
    (hl : resolved.lookup key = some id) :
    initial.lookup key = some id ∨ PassEntry c store v ids initial key id := by
  unfold iterativeAuthCheck at h
  obtain ⟨events, hevents, h⟩ := bind_eq_ok.mp h
  obtain ⟨pass, hpass, h⟩ := bind_eq_ok.mp h
  cases h
  rcases authPass_entry hpass hl with h | ⟨ev, hmem, rfl, hkey, happ⟩
  · exact Or.inl h
  · obtain ⟨hid, hf, hr⟩ := mem_eventsToCheck hevents ev hmem
    exact Or.inr ⟨ev, events, hid, hf, hr, hkey, hevents, happ⟩

end

/-! ## Both passes -/

section
variable (c : Codec) (ch : Choices) (store : EventStore) (version : StateResolutionVersion) (v : RoomVersion)
  (unconflicted : StateMap EventId) (conflicted : List EventId)

/-- The list of ids and the initial state of one of the two passes of a
resolution. -/
def IsPass (ids : List EventId) (initial : StateMap EventId) : Prop :=
  (sortControl c ch store version v unconflicted conflicted = .ok ids ∧ initial = initialState
    version unconflicted) ∨
    ∃ sortedControl, sortControl c ch store version v unconflicted conflicted = .ok sortedControl ∧
      iterativeAuthCheck c store v sortedControl (initialState version unconflicted) = .ok initial ∧
      mainlineSort store (eventsToResolve ch conflicted sortedControl) (initial.lookup (.roomPowerLevels, "")) =
        .ok ids

variable {c ch store version v unconflicted conflicted}

theorem sortControl_subset {sorted : List EventId}
    (h : sortControl c ch store version v unconflicted conflicted = .ok sorted) : sorted ⊆ conflicted := by
  unfold sortControl at h
  obtain ⟨⟨context, caches⟩, -, h⟩ := bind_eq_ok.mp h
  obtain ⟨⟨l, caches'⟩, hl, h⟩ := bind_eq_ok.mp h
  cases h
  refine mem_powerSort (fun x hx => ?_) hl
  have := (List.mem_insertionSort _).mp hx
  exact (mem_perm ch 7 conflicted x).mp (List.mem_filter.mp this).1

theorem isPass_subset {ids : List EventId} {initial : StateMap EventId}
    (h : IsPass c ch store version v unconflicted conflicted ids initial) : ids ⊆ conflicted := by
  rcases h with ⟨h, -⟩ | ⟨sortedControl, -, -, h⟩
  · exact sortControl_subset h
  · intro x hx
    have := (List.mem_insertionSort _).mp (mem_mainlineSort h hx)
    exact (mem_perm ch 8 conflicted x).mp (List.mem_filter.mp this).1

theorem resolveConflicted_entry {resolved : StateMap EventId}
    (h : resolveConflicted c ch store version v unconflicted conflicted = .ok resolved) {key : TypeStateKey}
    {id : EventId} (hl : resolved.lookup key = some id) :
    unconflicted.lookup key = some id ∨ ∃ ids initial,
      IsPass c ch store version v unconflicted conflicted ids initial ∧ PassEntry c store v ids initial key id := by
  unfold resolveConflicted at h
  obtain ⟨sortedControl, hsort, h⟩ := bind_eq_ok.mp h
  obtain ⟨resolvedControl, hcontrol, h⟩ := bind_eq_ok.mp h
  obtain ⟨sortedLeft, hleft, h⟩ := bind_eq_ok.mp h
  rcases iterativeAuthCheck_entry h hl with hl | he
  · rcases iterativeAuthCheck_entry hcontrol hl with hl | he
    · unfold initialState at hl
      split at hl
      · rw [AList.lookup_empty] at hl; cases hl
      · exact Or.inl hl
    · exact Or.inr ⟨_, _, Or.inl ⟨hsort, rfl⟩, he⟩
  · exact Or.inr ⟨_, _, Or.inr ⟨sortedControl, hsort, hcontrol, hleft⟩, he⟩

end

/-- The entries of a resolved state: unconflicted, or applied from the full
conflicted set; the unconflicted state is kept. -/
theorem resolve_sound (c : Codec) (ch : Choices) (roomVersion : RoomVersionId) (sets : List (StateMap EventId))
    (store : EventStore) (authChainFetch : List EventId → List EventId) (resolved : StateMap EventId)
    (h : resolve c ch roomVersion sets store authChainFetch = .ok resolved) :
    (∀ key id, resolved.lookup key = some id →
      (separate ch sets).1.lookup key = some id ∨
        ∃ conflicted v ev ids initial,
          allConflicted ch store authChainFetch (stateresVersion roomVersion) sets (separate ch sets).2 =
            .ok conflicted ∧
          RoomVersion.new roomVersion = .ok v ∧ id ∈ conflicted ∧ store.fetch id = some ev ∧ ev.rejected = false ∧
          (∃ stateKey, ev.stateKey = some stateKey ∧ key = (ev.kind, stateKey)) ∧
          IsPass c ch store (stateresVersion roomVersion) v (separate ch sets).1 conflicted ids initial ∧
          ∃ events, eventsToCheck store ids = .ok events ∧
            Applied c store v ⟨initial, hoistedCreate c store v events⟩ events ev) ∧
      ∀ key id, (separate ch sets).1.lookup key = some id → resolved.lookup key = some id := by
  unfold resolve at h
  simp only at h
  split at h
  · cases h
    exact ⟨fun key id hl => Or.inl hl, fun key id hl => hl⟩
  obtain ⟨conflicted, hconf, h⟩ := bind_eq_ok.mp h
  split at h
  · cases h
    exact ⟨fun key id hl => Or.inl hl, fun key id hl => hl⟩
  obtain ⟨v, hv, h⟩ := bind_eq_ok.mp h
  obtain ⟨r, hr, h⟩ := bind_eq_ok.mp h
  cases h
  refine ⟨fun key id hl => ?_, fun key id hl => ?_⟩
  · rcases AList.mem_lookup_union.mp hl with hl | ⟨-, hl⟩
    · exact Or.inl hl
    · rcases resolveConflicted_entry hr hl with hl | ⟨ids, initial, hpass, ev, events, hid, hf,
        hrej, hkey, hev, happ⟩
      · exact Or.inl hl
      · exact Or.inr ⟨conflicted, v, ev, ids, initial, hconf, hv, isPass_subset hpass hid, hf, hrej,
          hkey, hpass, events,
          hev, happ⟩
  · exact AList.mem_lookup_union.mpr (Or.inl hl)

/-! ## A room with a fork -/

/-- The order things are stored in, and every lookup run to its end. -/
def inOrder : Choices := ⟨fun _ _ l => l, fun _ _ l => List.Perm.refl l, fun _ => []⟩

def forkStore : EventStore where
  events :=
    [stateEvent "$c" "@alice:a" .roomCreate "" [("creator", .str "@alice:a")] [],
      stateEvent "$ma" "@alice:a" .roomMember "@alice:a" [("membership", .str "join")] ["$c"],
      stateEvent "$mb" "@bob:a" .roomMember "@bob:a" [("membership", .str "join")] ["$c"],
      stateEvent "$p1" "@alice:a" .roomPowerLevels ""
        [("users", .obj [("@alice:a", .num 100), ("@bob:a", .num 60)])] ["$c", "$ma"],
      stateEvent "$p2" "@alice:a" .roomPowerLevels ""
        [("users", .obj [("@alice:a", .num 50), ("@bob:a", .num 60)])] ["$c", "$ma", "$p1"],
      stateEvent "$j1" "@alice:a" .roomJoinRules "" [("join_rule", .str "invite")]
        ["$p1", "$p2", "$c", "$ma", "$mb"],
      stateEvent "$j2" "@bob:a" .roomJoinRules "" [("join_rule", .str "public")] ["$c", "$p2", "$mb"]]
  nodup := by decide

def forkSet (joinRules : EventId) : StateMap EventId :=
  AList.insert (.roomJoinRules, "") joinRules <| AList.insert (.roomCreate, "") "$c" <|
    AList.insert (.roomMember, "@alice:a") "$ma" <| AList.insert (.roomMember, "@bob:a") "$mb" <|
    AList.insert (.roomPowerLevels, "") "$p2" ∅

def authChainOf (store : EventStore) (ids : List EventId) : List EventId :=
  let seeds := ids.flatMap (authEventsOf store)
  Worklist.visit (authEventsOf store) (searchFuel store seeds) seeds []

/-- The resolved join rules of the fork were applied from the conflicted set. -/
theorem resolve_sound_fork : ∃ resolved,
    resolve .plain inOrder .V2 [forkSet "$j1", forkSet "$j2"] forkStore (authChainOf forkStore) = .ok resolved ∧
      resolved.lookup (.roomJoinRules, "") = some "$j1" ∧
      (separate inOrder [forkSet "$j1", forkSet "$j2"]).1.lookup (.roomJoinRules, "") = none ∧
      ((∀ key id, resolved.lookup key = some id →
        (separate inOrder [forkSet "$j1", forkSet "$j2"]).1.lookup key = some id ∨
          ∃ conflicted v ev ids initial,
            allConflicted inOrder forkStore (authChainOf forkStore) .V2 [forkSet "$j1", forkSet "$j2"]
              (separate inOrder [forkSet "$j1", forkSet "$j2"]).2 = .ok conflicted ∧
            RoomVersion.new .V2 = .ok v ∧ id ∈ conflicted ∧ forkStore.fetch id = some ev ∧ ev.rejected = false ∧
            (∃ stateKey, ev.stateKey = some stateKey ∧ key = (ev.kind, stateKey)) ∧
            IsPass .plain inOrder forkStore .V2 v (separate inOrder [forkSet "$j1", forkSet "$j2"]).1 conflicted ids
              initial ∧
            ∃ events, eventsToCheck forkStore ids = .ok events ∧
              Applied .plain forkStore v ⟨initial, hoistedCreate .plain forkStore v events⟩ events ev) ∧
        ∀ key id, (separate inOrder [forkSet "$j1", forkSet "$j2"]).1.lookup key = some id →
          resolved.lookup key = some id) := by
  have hok : ((resolve .plain inOrder .V2 [forkSet "$j1", forkSet "$j2"] forkStore
    (authChainOf forkStore)).toOption.bind
      fun m => m.lookup (.roomJoinRules, "")) = some "$j1" := by decide
  cases hr : resolve .plain inOrder .V2 [forkSet "$j1", forkSet "$j2"] forkStore (authChainOf forkStore) with
  | error e => rw [hr] at hok; cases hok
  | ok resolved =>
    rw [hr] at hok
    exact ⟨resolved, rfl, hok, by decide,
      resolve_sound .plain inOrder .V2 _ forkStore (authChainOf forkStore) resolved hr⟩

end Congruent
