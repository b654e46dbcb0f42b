import Congruent.AuthWalk

/-!
# Cached auth chains are fresh

Each request leaves the store and the caches in order, and returns what it would return
without cached chains.
-/

namespace Congruent.AuthChain

open EventWrites (Bitmap)
open Relation (ReflTransGen TransGen)

section
variable {c : Codec} {st st' : Store} {room : RoomId} {shortroomid : Nat} {id a : EventId}
  {order : SetOrder} {fuel : Nat}
  {s s' : State}

/-! ## The create event -/

theorem mem_addDerivedCreateEvent {exclude : Option EventId} {chain : Bitmap} {n : Nat} :
    n ∈ (st.addDerivedCreateEvent c room exclude chain).2 ↔
      n ∈ chain ∨ ∃ id, st.events.get? n = some id ∧ st.DerivedCreate c room id ∧ exclude ≠ some id := by
  unfold Store.addDerivedCreateEvent Store.DerivedCreate
  cases hcreate : createId c room with
  | none => simp
  | some create =>
    simp only [Option.some.injEq]
    by_cases hexclude : exclude = some create
    · simp [hexclude]
    · rw [if_neg hexclude]
      cases hshort : st.events.short? create with
      | none =>
        have hnot := Enumeration.short?_eq_none_iff.mp hshort
        simp [hnot]
      | some short =>
        have hget := Enumeration.short?_eq_some_iff.mp hshort
        cases hpdu : st.getPduInRoom c room create with
        | none => simp [hpdu]
        | some pdu =>
          have hadded : n ∈ chain.insert short ↔ n ∈ chain ∨ n = short :=
            EventWrites.Bitmap.mem_insert.trans or_comm
          simp only [Option.isNone_some, Bool.false_eq_true, if_false]
          rw [hadded]
          refine or_congr_right ⟨?_, ?_⟩
          · rintro rfl
            exact ⟨create, hget, ⟨rfl, Enumeration.mem_of_get? hget, by rw [hpdu]; rfl⟩, hexclude⟩
          · rintro ⟨id, hid, ⟨rfl, -⟩, -⟩
            exact Enumeration.get?_inj hid hget

theorem DerivedCreate.leaf (h : st.Valid c) (hid : st.DerivedCreate c room id) :
    st.storedAuthEvents c room id = some [] := by
  obtain ⟨hcreate, -, hpdu⟩ := hid
  obtain ⟨pdu, hpdu⟩ := Option.isSome_iff_exists.mp hpdu
  obtain ⟨hpdu, hroom⟩ := Store.getPduInRoom_eq_some_iff.mp hpdu
  have hnil := h.rooted id pdu room hpdu hroom hcreate
  exact (Store.storedAuthEvents_eq_some_iff h).mpr ⟨pdu, hpdu, hnil.symm, .inr hroom⟩

/-! ## One walk -/

section
variable {chains : AList fun _ : Nat × Nat => Bitmap} {start : Nat × EventId}

theorem Walking.init (hmirrors : s.db.Mirrors chains) (hstart : s.store.events.get? start.1 = some start.2) :
    Walking c s.store room start.2 chains ([start].map Prod.snd)
      ⟨[start], .empty, true, s.store.events, s.db, none⟩ := by
  refine ⟨s.store.events.le_refl, fun _ hid => .inl hid, hmirrors, rfl,
    fun n hn => absurd hn (EventWrites.Bitmap.not_mem_empty n), fun p hp => ?_, fun id hid => ?_⟩
  · rw [List.mem_singleton.mp hp]
    exact ⟨hstart, .refl⟩
  · rcases hid with rfl | ⟨n, hn, -⟩
    · exact .inl (List.mem_singleton_self _)
    · exact absurd hn (EventWrites.Bitmap.not_mem_empty n)

theorem Walking.covers {w : Walk} (h : Walking c st room a chains [] w) (hv : st.Valid c)
    (exclude : Option EventId) :
    Covers c { st with events := w.events } room a
      (Store.addDerivedCreateEvent c { st with events := w.events } room exclude w.found).2 ∧
    (w.isComplete = true → Whole c { st with events := w.events } room a
      (Store.addDerivedCreateEvent c { st with events := w.events } room exclude w.found).2) := by
  have hv' : Store.Valid c { st with events := w.events } := hv.number h.events
  have hkept : ∀ n ∈ w.found, n ∈ (Store.addDerivedCreateEvent c { st with events := w.events } room
      exclude w.found).2 :=
    fun n hn => mem_addDerivedCreateEvent.mpr (.inl hn)
  -- an event of the chain was walked from, or is the derived create event
  have hwalked : ∀ id, id = a ∨ Has w.events
      (Store.addDerivedCreateEvent c { st with events := w.events } room exclude w.found).2 id →
      Walked c st room w.events w.found w.isComplete id ∨ Store.DerivedCreate c
        { st with events := w.events } room id := by
    intro id hid
    rcases hid with hid | ⟨n, hn, hget⟩
    · exact .inl ((h.walked id (.inl hid)).resolve_left List.not_mem_nil)
    · rcases mem_addDerivedCreateEvent.mp hn with hn | ⟨id', hget', hderived, -⟩
      · exact .inl ((h.walked id (.inr ⟨n, hn, hget⟩)).resolve_left List.not_mem_nil)
      · change w.events.get? n = _ at hget'
        rw [hget, Option.some.injEq] at hget'
        exact .inr (hget' ▸ hderived)
  refine ⟨⟨fun n hn => ?_, fun id b hid hedge => ?_⟩, fun hc id hid => ?_⟩
  · rcases mem_addDerivedCreateEvent.mp hn with hn | ⟨id, hget, hderived, -⟩
    · obtain ⟨id, hget, hid⟩ := h.sound n hn
      refine ⟨id, hget, hid.imp (fun hreach => ?_) (Store.grows_number h.events).derivedCreate⟩
      exact TransGen.mono (fun _ _ hedge => (Store.authEdge_number hv h.events).mpr hedge) _ _ hreach
    · exact ⟨id, hget, .inr hderived⟩
  · rcases hwalked id hid with hw | hderived
    · exact (hw.closed b ((Store.authEdge_number hv h.events).mp hedge)).mono w.events.le_refl hkept
    · obtain ⟨ids, hids, hb⟩ := hedge
      rw [Option.mem_def, DerivedCreate.leaf hv' hderived, Option.some.injEq] at hids
      subst hids
      cases hb
  · rcases hwalked id hid with hw | hderived
    · rw [Store.storedAuthEvents_number hv h.events]
      exact hw.whole hc
    · rw [DerivedCreate.leaf hv' hderived]
      rfl

/-- The chain of a starting event, and the state after its walk. -/
structure Found (c : Codec) (room : RoomId) (a : EventId) (chains : AList fun _ : Nat × Nat => Bitmap)
    (s s' : State) (chain : Bitmap) (isComplete : Bool) : Prop where
  store : s'.store = { s.store with events := s'.store.events }
  events : s.store.events ≤ s'.store.events
  numbered : ∀ id ∈ s'.store.events.items, id ∈ s.store.events.items ∨ TransGen (s.store.AuthEdge c room) a id
  mirrors : s'.db.Mirrors chains
  covers : Covers c s'.store room a chain
  whole : isComplete = true → Whole c s'.store room a chain

theorem getAuthChainInner_found {res : Except Failure (Bitmap × Bool)} (hv : s.store.Valid c)
    (hmirrors : s.db.Mirrors chains) (hcached : CachedFor c s.store room shortroomid chains)
    (hstart : s.store.events.get? start.1 = some start.2)
    (hrun : s.getAuthChainInner c order fuel room shortroomid start = some (res, s')) :
    ∃ chain isComplete, res = .ok (chain, isComplete) ∧ Found c room start.2 chains s s' chain isComplete := by
  unfold State.getAuthChainInner at hrun
  obtain ⟨w, hw, heq⟩ := Option.map_eq_some_iff.mp hrun
  have h := (Walking.init hmirrors hstart).run hv hcached hw
  simp only [h.wrongRoom, Prod.mk.injEq] at heq
  obtain ⟨rfl, rfl⟩ := heq
  obtain ⟨hcovers, hwhole⟩ := h.covers hv (some start.2)
  exact ⟨_, _, rfl, rfl, h.events, h.numbered, h.mirrors, hcovers, fun hc => hwhole (Bool.and_eq_true_iff.mp hc).1⟩

theorem getAuthChainInner_ends (order : SetOrder) (hv : s.store.Valid c) (hmirrors : s.db.Mirrors chains)
    (hcached : CachedFor c s.store room shortroomid chains) (hstart : s.store.events.get? start.1 = some start.2)
    (hfuel : s.store.cited.length < fuel) :
    ∃ res s', s.getAuthChainInner c order fuel room shortroomid start = some (res, s') := by
  obtain ⟨w, hw⟩ := Walking.ends (w := ⟨[start], .empty, true, s.store.events, s.db, none⟩) order
    (Walking.init hmirrors hstart) hv hcached (.inr (Nat.lt_of_le_of_lt (unfound_le _ _) hfuel))
  unfold State.getAuthChainInner
  rw [hw]
  exact ⟨_, _, rfl⟩

end

/-! ## States in order -/

/-- The cache in memory is part of the one in the database, and what that holds is whole. -/
structure State.Valid (c : Codec) (s : State) : Prop where
  store : s.store.Valid c
  mirrors : s.db.Mirrors s.db.shorteventidAuthchain
  cached : ∀ r n chain, s.db.shorteventidAuthchain.lookup (r, n) = some chain →
    ∃ room id, s.store.rooms.get? r = some room ∧ s.store.events.get? n = some id ∧
      Covers c s.store room id chain ∧ Whole c s.store room id chain

namespace State.Valid

theorem init : Valid c .init := by
  refine ⟨⟨fun _ _ h => ?_, fun _ _ _ h => ?_⟩, ⟨rfl, fun _ _ h => ?_⟩, fun _ _ _ h => ?_⟩
  all_goals cases h

theorem cachedFor (h : Valid c s) (hroom : s.store.rooms.get? shortroomid = some room) :
    CachedFor c s.store room shortroomid s.db.shorteventidAuthchain := by
  intro n chain hchain
  obtain ⟨room', id, hroom', hget, hchain⟩ := h.cached shortroomid n chain hchain
  rw [hroom, Option.some.injEq] at hroom'
  subst hroom'
  exact ⟨id, hget, hchain⟩

theorem grows {db : Data} (h : Valid c s) (hg : Store.Grows s.store st) (hv : st.Valid c)
    (hmirrors : db.Mirrors s.db.shorteventidAuthchain) : Valid c ⟨st, db⟩ := by
  refine ⟨hv, ⟨rfl, fun key chain hmem => ?_⟩, fun r n chain hchain => ?_⟩
  · rw [hmirrors.database]
    exact hmirrors.memory key chain hmem
  · rw [hmirrors.database] at hchain
    obtain ⟨room, id, hroom, hget, hcovers, hwhole⟩ := h.cached r n chain hchain
    exact ⟨room, id, Enumeration.get?_of_le hg.rooms hroom, Enumeration.get?_of_le hg.events hget,
      hcovers.grows hwhole hg h.store hv⟩

theorem cacheAuthChain {n : Nat} {chain : Bitmap} (h : Valid c s)
    (hroom : s.store.rooms.get? shortroomid = some room)
    (hget : s.store.events.get? n = some a) (hcovers : Covers c s.store room a chain)
    (hwhole : Whole c s.store room a chain) : Valid c ⟨s.store, s.db.cacheAuthChain (shortroomid, n) chain⟩ := by
  refine ⟨h.store, ⟨rfl, fun key chain' hmem => ?_⟩, fun r m chain' hchain => ?_⟩
  · change AList.lookup _ (AList.insert _ _ _) = _ at hmem
    change AList.lookup _ (AList.insert _ _ _) = _
    rw [AList.lookup_insert_ite] at hmem ⊢
    split
    · rename_i heq
      rw [if_pos heq] at hmem
      exact hmem
    · rename_i hne
      rw [if_neg hne] at hmem
      exact h.mirrors.memory key chain' hmem
  · change AList.lookup _ (AList.insert _ _ _) = _ at hchain
    rw [AList.lookup_insert_ite] at hchain
    split at hchain
    · rename_i heq
      obtain ⟨rfl, rfl⟩ := Prod.mk.inj heq
      rw [Option.some.injEq] at hchain
      subst hchain
      exact ⟨room, a, hroom, hget, hcovers, hwhole⟩
    · exact h.cached r m chain' hchain

theorem found {n : Nat} {chain : Bitmap} {isComplete : Bool} (h : Valid c s)
    (hroom : s.store.rooms.get? shortroomid = some room) (hget : s.store.events.get? n = some a)
    (hfound : Found c room a s.db.shorteventidAuthchain s s' chain isComplete) :
    Valid c (if isComplete then { s' with db := s'.db.cacheAuthChain (shortroomid, n) chain } else s') := by
  have hv : s'.store.Valid c := by
    rw [hfound.store]
    exact h.store.number hfound.events
  have hg : Store.Grows s.store s'.store := by
    rw [hfound.store]
    exact Store.grows_number hfound.events
  have hvalid : Valid c s' := h.grows hg hv hfound.mirrors
  split
  · rename_i hc
    exact hvalid.cacheAuthChain (Enumeration.get?_of_le hg.rooms hroom) (Enumeration.get?_of_le hg.events hget)
      hfound.covers (hfound.whole hc)
  · exact hvalid

end State.Valid

/-! ## Requests -/

section
variable {starting : List EventId}

/-- A request has numbered events that it came to. -/
structure Within (c : Codec) (st : Store) (room : RoomId) (starting : List EventId) (st' : Store) : Prop where
  store : st' = { st with events := st'.events }
  events : st.events ≤ st'.events
  numbered : ∀ id ∈ st'.events.items, id ∈ st.events.items ∨ ∃ a ∈ starting, ReflTransGen (st.AuthEdge c room) a id

namespace Within

theorem authEdge {b : EventId} (h : Within c st room starting st') (hv : st.Valid c) :
    st'.AuthEdge c room id b ↔ st.AuthEdge c room id b := by
  rw [h.store]
  exact Store.authEdge_number hv h.events

theorem derivedCreate (h : Within c st room starting st') (hid : st'.DerivedCreate c room id) :
    st.InAuthChain c room starting id := by
  obtain ⟨hcreate, hmem, hpdu⟩ := hid
  rcases h.numbered id hmem with hmem | hreach
  · rw [h.store] at hpdu
    exact .inr ⟨hcreate, hmem, hpdu⟩
  · exact .inl hreach

theorem found {chains : AList fun _ : Nat × Nat => Bitmap} {chain : Bitmap} {isComplete : Bool}
    (h : Within c st room starting s.store) (hv : st.Valid c) (ha : a ∈ starting)
    (hfound : Found c room a chains s s' chain isComplete) : Within c st room starting s'.store := by
  refine ⟨?_, Enumeration.le_trans h.events hfound.events, fun id hid => ?_⟩
  · rw [hfound.store, h.store]
  · rcases hfound.numbered id hid with hid | hreach
    · exact h.numbered id hid
    · refine .inr ⟨a, ha, TransGen.to_reflTransGen ?_⟩
      exact TransGen.mono (fun _ _ hedge => (h.authEdge hv).mp hedge) _ _ hreach

end Within

/-- What a request has gathered, with the starting events whose chains are still to be found. -/
structure Gathered (c : Codec) (st : Store) (room : RoomId) (starting : List EventId) (events : Enumeration EventId)
    (left : List EventId) (full : Bitmap) : Prop where
  sound : ∀ n ∈ full, ∃ id, events.get? n = some id ∧ st.InAuthChain c room starting id
  reached : ∀ a ∈ starting, a ∈ left ∨ ∀ id, ReflTransGen (st.AuthEdge c room) a id → Has events full id

namespace Gathered

variable {left left' : List EventId} {full chain : Bitmap} {n : Nat}

theorem mono {events events' : Enumeration EventId} (h : Gathered c st room starting events left full)
    (hle : events ≤ events') : Gathered c st room starting events' left full := by
  refine ⟨fun n hn => ?_, fun a ha => ?_⟩
  · obtain ⟨id, hget, hid⟩ := h.sound n hn
    exact ⟨id, Enumeration.get?_of_le hle hget, hid⟩
  · exact (h.reached a ha).imp_right fun hall id hreach => (hall id hreach).mono hle fun _ hn => hn

theorem add (h : Gathered c st room starting st'.events left full) (hwithin : Within c st room starting st')
    (hv : st.Valid c) (hcovers : Covers c st' room a chain) (ha : a ∈ starting)
    (hget : st'.events.get? n = some a) (hleft : ∀ b ∈ left, b = a ∨ b ∈ left') :
    Gathered c st room starting st'.events left' ((full.union chain).insert n) := by
  have hmem : ∀ m, m ∈ (full.union chain).insert n ↔ m = n ∨ m ∈ full ∨ m ∈ chain :=
    fun m => EventWrites.Bitmap.mem_insert.trans (or_congr_right EventWrites.Bitmap.mem_union)
  have hmono : ∀ {x y}, ReflTransGen (st'.AuthEdge c room) x y ↔ ReflTransGen (st.AuthEdge c room) x y := by
    intro x y
    have heq : st'.AuthEdge c room = st.AuthEdge c room := by
      funext x y
      exact propext (hwithin.authEdge hv)
    rw [heq]
  refine ⟨fun m hm => ?_, fun b hb => ?_⟩
  · rcases (hmem m).mp hm with rfl | hm | hm
    · exact ⟨a, hget, .inl ⟨a, ha, .refl⟩⟩
    · exact h.sound m hm
    · obtain ⟨id, hid, hfrom⟩ := hcovers.sound m hm
      rcases hfrom with hreach | hderived
      · exact ⟨id, hid, .inl ⟨a, ha, hmono.mp hreach.to_reflTransGen⟩⟩
      · exact ⟨id, hid, hwithin.derivedCreate hderived⟩
  · by_cases hba : b = a
    · subst hba
      refine .inr fun id hreach => ?_
      rcases hcovers.reach (hmono.mpr hreach) with rfl | ⟨m, hm, hid⟩
      · exact ⟨n, (hmem n).mpr (.inl rfl), hget⟩
      · exact ⟨m, (hmem m).mpr (.inr (.inr hm)), hid⟩
    · rcases h.reached b hb with hb | hall
      · exact .inl ((hleft b hb).resolve_left hba)
      · exact .inr fun id hreach => (hall id hreach).mono (Enumeration.le_refl _) fun m hm =>
          (hmem m).mpr (.inr (.inl hm))

end Gathered

/-- What a walk leaves is in order, and it has ended. -/
structure Walks (c : Codec) (st : Store) (room : RoomId) (starting : List EventId) (fuel : Nat)
    (r : Option (Except Failure Bitmap × State)) : Prop where
  ends : st.cited.length < fuel → r.isSome
  result : ∀ res s', r = some (res, s') → ∃ full, res = .ok full ∧ s'.Valid c ∧ Within c st room starting s'.store ∧
    Gathered c st room starting s'.store.events [] full

theorem store_cached {isComplete : Bool} {db : Data} : (if isComplete then { s with db := db } else s).store =
    s.store := by
  cases isComplete <;> rfl

theorem walkUncached_walks {rest : List (Nat × EventId)} {full : Bitmap} (order : SetOrder) (fuel : Nat)
    (hv : st.Valid c) (hvalid : s.Valid c)
    (hwithin : Within c st room starting s.store) (hroom : st.rooms.get? shortroomid = some room)
    (hrest : ∀ p ∈ rest, s.store.events.get? p.1 = some p.2 ∧ p.2 ∈ starting)
    (hg : Gathered c st room starting s.store.events (rest.map Prod.snd) full) :
    Walks c st room starting fuel (State.walkUncached c order fuel room shortroomid rest full s) := by
  induction rest generalizing full s with
  | nil =>
    refine ⟨fun _ => rfl, fun res s' heq => ?_⟩
    cases heq
    exact ⟨full, rfl, hvalid, hwithin, hg⟩
  | cons start rest ih =>
    obtain ⟨hget, ha⟩ := hrest start List.mem_cons_self
    have hroom' : s.store.rooms.get? shortroomid = some room := by
      rw [hwithin.store]
      exact hroom
    have hleft : ∀ b ∈ (start :: rest).map Prod.snd, b = start.2 ∨ b ∈ rest.map Prod.snd :=
      fun b hb => List.mem_cons.mp hb
    obtain ⟨hfst, hmirrors⟩ := hvalid.mirrors.get (shortroomid, start.1)
    unfold State.walkUncached
    split
    · rename_i cached db heq
      rw [heq] at hfst hmirrors
      obtain ⟨id, hid, hcovers, -⟩ := hvalid.cachedFor hroom' start.1 cached hfst.symm
      rw [hget, Option.some.injEq] at hid
      subst hid
      exact ih (hvalid.grows (.refl _) hvalid.store hmirrors) hwithin
        (fun p hp => hrest p (List.mem_cons_of_mem _ hp))
        (hg.add hwithin hv hcovers ha hget hleft)
    · rename_i db heq
      rw [heq] at hmirrors
      have hs : State.Valid c ⟨s.store, db⟩ := hvalid.grows (.refl _) hvalid.store hmirrors
      have hcached := hs.cachedFor hroom'
      -- the walks of the other starting events, after this one
      have hnext : ∀ {chain isComplete s₁}, Found c room start.2 db.shorteventidAuthchain ⟨s.store, db⟩
        s₁ chain isComplete →
          Walks c st room starting fuel (State.walkUncached c order fuel room shortroomid rest
            ((full.union chain).insert start.1)
            (if isComplete then { s₁ with db := s₁.db.cacheAuthChain (shortroomid, start.1) chain } else s₁)) := by
        intro chain isComplete s₁ hfound
        have hwithin₁ := Within.found (s := ⟨s.store, db⟩) hwithin hv ha hfound
        refine ih (hs.found hroom' hget hfound) ?_ (fun p hp => ?_) ?_
        · rw [store_cached]
          exact hwithin₁
        · obtain ⟨hp, hmem⟩ := hrest p (List.mem_cons_of_mem _ hp)
          rw [store_cached]
          exact ⟨Enumeration.get?_of_le hfound.events hp, hmem⟩
        · rw [store_cached]
          exact (hg.mono hfound.events).add hwithin₁ hv hfound.covers ha
            (Enumeration.get?_of_le hfound.events hget) hleft
      constructor
      · intro hfuel
        have hcited : st.cited = s.store.cited := by
          rw [hwithin.store]
          rfl
        obtain ⟨res, s₁, hinner⟩ := getAuthChainInner_ends (s := ⟨s.store, db⟩) order hs.store hs.mirrors
          hcached hget (hcited ▸ hfuel)
        obtain ⟨chain, isComplete, rfl, hfound⟩ := getAuthChainInner_found hs.store hs.mirrors hcached hget hinner
        rw [hinner]
        exact (hnext hfound).ends hfuel
      · intro res s' hrun
        obtain ⟨⟨r, s₁⟩, hinner, hrun⟩ := Option.bind_eq_some_iff.mp hrun
        obtain ⟨chain, isComplete, rfl, hfound⟩ := getAuthChainInner_found hs.store hs.mirrors hcached hget hinner
        exact (hnext hfound).result res s' hrun

theorem check_foldl {l : List (Nat × EventId)} {k : Checked} {chains : AList fun _ : Nat × Nat => Bitmap}
    (hv : st.Valid c) (hwithin : Within c st room starting st') (hmirrors : k.db.Mirrors chains)
    (hcached : CachedFor c st' room shortroomid chains)
    (hl : ∀ p ∈ l, st'.events.get? p.1 = some p.2 ∧ p.2 ∈ starting)
    (hk : ∀ p ∈ k.uncached, st'.events.get? p.1 = some p.2 ∧ p.2 ∈ starting)
    (hg : Gathered c st room starting st'.events ((k.uncached ++ l).map Prod.snd) k.fullAuthChain) :
    (l.foldl (Checked.check shortroomid) k).db.Mirrors chains ∧
      (∀ p ∈ (l.foldl (Checked.check shortroomid) k).uncached, st'.events.get? p.1 = some p.2 ∧ p.2 ∈ starting) ∧
      Gathered c st room starting st'.events ((l.foldl (Checked.check shortroomid) k).uncached.map Prod.snd)
        (l.foldl (Checked.check shortroomid) k).fullAuthChain := by
  induction l generalizing k with
  | nil =>
    rw [List.append_nil] at hg
    exact ⟨hmirrors, hk, hg⟩
  | cons start l ih =>
    rw [List.foldl_cons]
    have hl' := fun p hp => hl p (List.mem_cons_of_mem start hp)
    obtain ⟨hget, ha⟩ := hl start List.mem_cons_self
    obtain ⟨hfst, hmirrors'⟩ := hmirrors.get (shortroomid, start.1)
    cases hcheck : k.db.getCachedEventidAuthchain (shortroomid, start.1) with
    | mk cached db =>
      rw [hcheck] at hfst hmirrors'
      cases cached with
      | some cached =>
        have heq : k.check shortroomid start = ⟨(k.fullAuthChain.union cached).insert start.1, k.uncached, db⟩ := by
          simp [Checked.check, hcheck]
        obtain ⟨id, hid, hcovers, -⟩ := hcached start.1 cached hfst.symm
        rw [hget, Option.some.injEq] at hid
        subst hid
        rw [heq]
        refine ih hmirrors' hl' hk (hg.add hwithin hv hcovers ha hget fun b hb => ?_)
        simp only [List.map_append, List.map_cons, List.mem_append, List.mem_cons] at hb ⊢
        rcases hb with hb | hb | hb
        · exact .inr (.inl hb)
        · exact .inl hb
        · exact .inr (.inr hb)
      | none =>
        have heq : k.check shortroomid start = ⟨k.fullAuthChain, k.uncached ++ [start], db⟩ := by
          simp [Checked.check, hcheck]
        rw [heq]
        refine ih hmirrors' hl' (fun p hp => ?_) ?_
        · rcases List.mem_append.mp hp with hp | hp
          · exact hk p hp
          · rw [List.mem_singleton.mp hp]
            exact ⟨hget, ha⟩
        · rw [List.append_assoc]
          exact hg

/-- The numbers of these events. -/
def Lists (events : Enumeration EventId) (chain : List Nat) (P : EventId → Prop) : Prop :=
  (∀ n ∈ chain, (events.get? n).isSome) ∧ ∀ id, (∃ n ∈ chain, events.get? n = some id) ↔ P id

theorem Gathered.lists {full : Bitmap} (hwithin : Within c st room starting st')
    (hg : Gathered c st room starting st'.events [] full) :
    Lists st'.events (st'.addDerivedCreateEvent c room none full).2.elements
      (st.InAuthChain c room starting) := by
  have hsound : ∀ n ∈ (st'.addDerivedCreateEvent c room none full).2, ∃ id, st'.events.get? n = some id ∧
      st.InAuthChain c room starting id := by
    intro n hn
    rcases mem_addDerivedCreateEvent.mp hn with hn | ⟨id, hget, hderived, -⟩
    · exact hg.sound n hn
    · exact ⟨id, hget, hwithin.derivedCreate hderived⟩
  refine ⟨fun n hn => ?_, fun id => ⟨?_, ?_⟩⟩
  · obtain ⟨id, hget, -⟩ := hsound n hn
    rw [hget]
    rfl
  · rintro ⟨n, hn, hget⟩
    obtain ⟨id', hget', hid⟩ := hsound n hn
    rw [hget, Option.some.injEq] at hget'
    exact hget' ▸ hid
  · rintro (⟨a, ha, hreach⟩ | ⟨hcreate, hmem, hpdu⟩)
    · obtain ⟨n, hn, hget⟩ := (hg.reached a ha).resolve_left List.not_mem_nil id hreach
      exact ⟨n, mem_addDerivedCreateEvent.mpr (.inl hn), hget⟩
    · have hget := Enumeration.get?_short (Enumeration.mem_of_le hwithin.events hmem)
      have hderived : st'.DerivedCreate c room id := by
        refine ⟨hcreate, Enumeration.mem_of_le hwithin.events hmem, ?_⟩
        rw [hwithin.store]
        exact hpdu
      exact ⟨_, mem_addDerivedCreateEvent.mpr (.inr ⟨id, hget, hderived, nofun⟩), hget⟩

theorem getAuthChain_answers (order : SetOrder) (fuel : Nat) (starting : List EventId) (hvalid : s.Valid c)
    (hroom : s.store.rooms.short? room = some shortroomid) :
    (s.store.cited.length < fuel → (s.getAuthChain c order fuel room starting).isSome) ∧
      ∀ res s', s.getAuthChain c order fuel room starting = some (res, s') →
        s'.Valid c ∧ ∃ chain, res = .ok chain ∧ Lists s'.store.events chain
          (s.store.InAuthChain c room starting) := by
  have hle := s.store.events.le_numberAll starting
  have hnumbered : ∀ id ∈ (s.store.events.numberAll starting).items, id ∈ s.store.events.items ∨ id ∈ starting :=
    fun id => Enumeration.mem_numberAll.mp
  have hstarting : ∀ a ∈ starting, a ∈ (s.store.events.numberAll starting).items :=
    fun a ha => Enumeration.mem_numberAll.mpr (.inr ha)
  unfold State.getAuthChain
  rw [hroom]
  simp only
  generalize s.store.events.numberAll starting = events at hle hnumbered hstarting ⊢
  have hgrows : Store.Grows s.store { s.store with events := events } := Store.grows_number hle
  have hvalid' := hvalid.grows hgrows (hvalid.store.number hle) hvalid.mirrors
  have hwithin : Within c s.store room starting { s.store with events := events } :=
    ⟨rfl, hle, fun id hid => (hnumbered id hid).imp_right fun ha => ⟨id, ha, .refl⟩⟩
  have hstarts : ∀ p ∈ starting.map fun id => (events.short id, id), events.get? p.1 = some p.2 ∧
      p.2 ∈ starting := by
    intro p hp
    obtain ⟨a, ha, rfl⟩ := List.mem_map.mp hp
    exact ⟨Enumeration.get?_short (hstarting a ha), ha⟩
  have hget := Enumeration.short?_eq_some_iff.mp hroom
  obtain ⟨hmirrors, hrest, hg⟩ := check_foldl (k := ⟨.empty, [], s.db⟩) hvalid.store hwithin hvalid.mirrors
    (hvalid'.cachedFor hget) hstarts (fun _ hp => absurd hp List.not_mem_nil)
    ⟨fun n hn => absurd hn (EventWrites.Bitmap.not_mem_empty n), fun a ha => .inl (by simpa using ha)⟩
  have hwalks := walkUncached_walks order fuel hvalid.store
    (hvalid'.grows (.refl _) hvalid'.store hmirrors) hwithin hget hrest hg
  constructor
  · intro hfuel
    rw [Option.isSome_map]
    exact hwalks.ends hfuel
  · intro res s' heq
    obtain ⟨⟨res₁, s₁⟩, hrun, heq⟩ := Option.map_eq_some_iff.mp heq
    obtain ⟨full, rfl, hvalid₁, hwithin₁, hg₁⟩ := hwalks.result res₁ s₁ hrun
    cases heq
    exact ⟨hvalid₁, _, rfl, hg₁.lists hwithin₁⟩

end

/-! ## Runs -/

theorem step_valid {action : Action} (h : s.Valid c) (hok : Rooted c action s) (hs : step c action s = some s') :
    s'.Valid c := by
  cases action with
  | getOrCreateShortroomid room =>
    cases hs
    exact h.grows (Store.grows_rooms (Enumeration.le_number _ _)) ⟨h.store.rows, h.store.rooted⟩ h.mirrors
  | getOrCreateShorteventid id =>
    cases hs
    have hle := Enumeration.le_number s.store.events id
    exact h.grows (Store.grows_number hle) (h.store.number hle) h.mirrors
  | arrive pdu indexed =>
    cases hs
    obtain ⟨hv, hg⟩ := Store.arrive_spec h.store indexed hok
    exact h.grows hg hv h.mirrors
  | getAuthChain order fuel room starting =>
    obtain ⟨⟨res, s₁⟩, hrun, rfl⟩ := Option.map_eq_some_iff.mp hs
    cases hroom : s.store.rooms.short? room with
    | none =>
      unfold State.getAuthChain at hrun
      rw [hroom] at hrun
      cases hrun
      exact h
    | some shortroomid => exact ((getAuthChain_answers order fuel starting h hroom).2 res s₁ hrun).1
  | evict key =>
    cases hs
    refine h.grows (.refl _) h.store ⟨rfl, fun key' chain hmem => ?_⟩
    change AList.lookup _ (AList.erase _ _) = _ at hmem
    rw [AList.lookup_erase_eq] at hmem
    split at hmem
    · cases hmem
    · exact h.mirrors.memory key' chain hmem
  | clearCache =>
    cases hs
    exact h.grows (.refl _) h.store ⟨rfl, nofun⟩
  | clearDbCache =>
    cases hs
    exact ⟨h.store, ⟨rfl, nofun⟩, nofun⟩

end

namespace State

variable {c : Codec} {s : State}

def inserted : SetOrder := ⟨fun l => l, Iff.rfl⟩

def topicArrives (id : EventId) (authEvents : List EventId) : Action :=
  .arrive (stateEvent id "@alice:a" (.other "m.room.topic") "" [("topic", .str "x")] authEvents) true

end State

end Congruent.AuthChain
