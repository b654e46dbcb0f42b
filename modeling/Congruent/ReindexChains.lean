import Congruent.AuthWalk

/-!
# The sweep over the auth chains of a room (`timeline/reindex.rs`)

The events of a room are gone through in stream order. One whose row of auth events was
wrong, or that has no cached chain, gets a chain that is built from its auth events and from
the chains of those that the sweep has come by. An auth event that comes later, or that is
not in the stream at all, adds only itself.
-/

namespace Congruent.AuthChain

open Relation (TransGen)
open EventWrites (Bitmap)

/-! ## The sweep (`reindex_short`) -/

structure Sweep extends State where
  authChainCache : AList fun _ : Nat => Bitmap
  /-- The chains given to the chain cache, in order. -/
  written : List (EventId × Bitmap)

/-- The short ids that are looked up or made for an event: its own, those of its previous
events and those of its auth events. -/
def numberEvent (events : Enumeration EventId) (id : EventId) (pdu : Pdu) : Enumeration EventId :=
  ((events.number id).numberAll pdu.prevEvents).numberAll pdu.authEvents

namespace Sweep

def fullChain (authChainCache : AList fun _ : Nat => Bitmap) (authShorts : List Nat) : Bitmap :=
  authShorts.foldl (fun fullChain authShort =>
    match authChainCache.lookup authShort with
    | some ancestorChain => (fullChain.insert authShort).union ancestorChain
    | none => fullChain.insert authShort) .empty

section
variable (shortroomid shortEid : Nat) (id : EventId) (authShorts : List Nat) (s : Sweep)

def rebuild : Sweep :=
  let chain := fullChain s.authChainCache authShorts
  { s with
    db := s.db.cacheAuthChain (shortroomid, shortEid) chain
    authChainCache := s.authChainCache.insert shortEid chain
    written := s.written ++ [(id, chain)] }

/-- The cache is asked only about an event whose row was right. -/
def repair : Sweep :=
  if s.store.shortauthevents.lookup shortEid ≠ some authShorts then
    rebuild shortroomid shortEid id authShorts
      { s with store := { s.store with shortauthevents := s.store.shortauthevents.insert shortEid authShorts } }
  else
    match s.db.getCachedEventidAuthchain (shortroomid, shortEid) with
    | (none, db) => rebuild shortroomid shortEid id authShorts { s with db := db }
    | (some _, db) =>
      match db.getCachedEventidAuthchain (shortroomid, shortEid) with
      | (some existing, db) => { s with db := db, authChainCache := s.authChainCache.insert shortEid existing }
      | (none, db) => { s with db := db }

end

def visit (shortroomid : Nat) (s : Sweep) (id : EventId) : Sweep :=
  match s.store.eventidPdu.lookup id with
  | none => s
  | some pdu =>
    let events := numberEvent s.store.events id pdu
    repair shortroomid (events.short id) id (pdu.authEvents.map events.short)
      { s with store := { s.store with events := events } }

/-- The sweep over the events of the stream index, oldest first. -/
def reindexShort (shortroomid : Nat) (st : State) (events : List EventId) : Sweep :=
  events.foldl (visit shortroomid) ⟨st, ∅, []⟩

end Sweep

/-! ## What a chain should have -/

namespace Store

/-- The short ids after a sweep over the events. -/
def numbering (st : Store) (events : List EventId) : Enumeration EventId :=
  events.foldl (fun numbers id => (st.eventidPdu.lookup id).elim numbers (numberEvent numbers id)) st.events

def Cites (st : Store) (a b : EventId) : Prop := ∃ pdu, st.eventidPdu.lookup a = some pdu ∧ b ∈ pdu.authEvents

instance (st : Store) (a b : EventId) : Decidable (st.Cites a b) :=
  decidable_of_iff (b ∈ (st.eventidPdu.lookup a).elim [] (·.authEvents)) (by
    unfold Cites
    cases st.eventidPdu.lookup a <;> simp)

def Above (st : Store) : EventId → EventId → Prop := TransGen st.Cites

/-- A chain has what is above the event and nothing else. -/
structure Exact (st : Store) (numbers : Enumeration EventId) (id : EventId) (chain : Bitmap) : Prop where
  sound : ∀ n ∈ chain, ∃ b, numbers.get? n = some b ∧ st.Above id b
  whole : ∀ b, st.Above id b → Has numbers chain b

theorem exact_congr {st st' : Store} {numbers : Enumeration EventId} {id : EventId} {chain : Bitmap}
    (h : st'.eventidPdu = st.eventidPdu) : st'.Exact numbers id chain ↔ st.Exact numbers id chain := by
  have habove : st'.Above = st.Above := by
    unfold Above Cites
    rw [h]
  constructor
  · rintro ⟨hsound, hwhole⟩
    exact ⟨habove ▸ hsound, habove ▸ hwhole⟩
  · rintro ⟨hsound, hwhole⟩
    exact ⟨habove ▸ hsound, habove ▸ hwhole⟩

end Store

namespace State

variable (shortroomid : Nat) (numbers : Enumeration EventId) (st : State)

def chainBehind (n : Nat) (row : List Nat) : Option Bitmap :=
  if st.store.shortauthevents.lookup n = some row then (st.db.getCachedEventidAuthchain
    (shortroomid, n)).1 else none

def kept (id : EventId) : Option Bitmap :=
  (st.store.eventidPdu.lookup id).bind fun pdu =>
    st.chainBehind shortroomid (numbers.short id) (pdu.authEvents.map numbers.short)

/-- What a sweep gets from an event that it has come by. -/
def Known (a b : EventId) : Prop :=
  match st.kept shortroomid numbers a with
  | some chain => Has numbers chain b
  | none => st.store.Above a b

/-- The auth events of an event that come before it lead to all that is above them. -/
structure Covered (before : List EventId) (id : EventId) : Prop where
  found : ∀ b, st.store.Above id b → st.store.Cites id b ∨
    ∃ a ∈ before, st.store.Cites id a ∧ st.Known shortroomid numbers a b
  nothingElse : ∀ a ∈ before, st.store.Cites id a → ∀ chain, st.kept shortroomid numbers a = some chain →
    ∀ n ∈ chain, ∃ b, numbers.get? n = some b ∧ st.store.Above id b

end State

/-! ## The caches -/

theorem Data.get_fst (d : Data) (key : Nat × Nat) : (d.getCachedEventidAuthchain key).1 =
    (d.authChainCache.lookup key).or (d.shorteventidAuthchain.lookup key) := by
  unfold getCachedEventidAuthchain
  cases d.authChainCache.lookup key with
  | some chain => rfl
  | none => cases d.shorteventidAuthchain.lookup key <;> rfl

theorem Data.get_get (d : Data) (key key' : Nat × Nat) :
    ((d.getCachedEventidAuthchain key).2.getCachedEventidAuthchain key').1 =
      (d.getCachedEventidAuthchain key').1 := by
  rw [get_fst, get_fst]
  unfold getCachedEventidAuthchain
  cases hmem : d.authChainCache.lookup key with
  | some chain => rfl
  | none =>
    cases hdb : d.shorteventidAuthchain.lookup key with
    | none => rfl
    | some chain =>
      simp only [AList.lookup_insert_ite]
      by_cases heq : key' = key
      · rw [if_pos heq, heq, hmem, hdb]
        rfl
      · rw [if_neg heq]

theorem Data.get_cache (d : Data) (key key' : Nat × Nat) (chain : Bitmap) :
    ((d.cacheAuthChain key chain).getCachedEventidAuthchain key').1 =
      if key' = key then some chain else (d.getCachedEventidAuthchain key').1 := by
  rw [get_fst, get_fst]
  unfold cacheAuthChain
  simp only [AList.lookup_insert_ite]
  split <;> rfl

namespace Sweep

theorem mem_fullChain {authChainCache : AList fun _ : Nat => Bitmap} {authShorts : List Nat} {n : Nat} :
    n ∈ fullChain authChainCache authShorts ↔
      ∃ m ∈ authShorts, n = m ∨ ∃ chain, authChainCache.lookup m = some chain ∧ n ∈ chain := by
  have hfold : ∀ (l : List Nat) (b : Bitmap),
      n ∈ l.foldl (fun fullChain authShort =>
        match authChainCache.lookup authShort with
        | some ancestorChain => (fullChain.insert authShort).union ancestorChain
        | none => fullChain.insert authShort) b ↔
      n ∈ b ∨ ∃ m ∈ l, n = m ∨ ∃ chain, authChainCache.lookup m = some chain ∧ n ∈ chain := by
    intro l
    induction l with
    | nil => simp
    | cons m l ih =>
      intro b
      rw [List.foldl_cons, ih, List.exists_mem_cons_iff]
      cases authChainCache.lookup m with
      | none => simp [Bitmap.mem_insert, or_assoc, or_left_comm]
      | some chain => simp [Bitmap.mem_insert, Bitmap.mem_union, or_assoc, or_left_comm]
  unfold fullChain
  rw [hfold]
  exact or_iff_right (Bitmap.not_mem_empty n)

/-! ## What a repair does -/

section
variable {shortroomid shortEid : Nat} {id : EventId} {authShorts : List Nat} {s s' : Sweep}

def chainAt (shortroomid shortEid : Nat) (authShorts : List Nat) (s : Sweep) : Bitmap :=
  (s.chainBehind shortroomid shortEid authShorts).getD (fullChain s.authChainCache authShorts)

structure Repaired (shortroomid shortEid : Nat) (id : EventId) (authShorts : List Nat) (s s' : Sweep) : Prop where
  pdus : s'.store.eventidPdu = s.store.eventidPdu
  behind : s'.chainBehind shortroomid shortEid authShorts = some (s.chainAt shortroomid shortEid authShorts)
  others : ∀ n row, n ≠ shortEid → s'.chainBehind shortroomid n row = s.chainBehind shortroomid n row
  cache : s'.authChainCache = s.authChainCache.insert shortEid (s.chainAt shortroomid shortEid authShorts)
  written : s'.written = s.written ++ if (s.chainBehind shortroomid shortEid authShorts).isSome then []
    else [(id, s.chainAt shortroomid shortEid authShorts)]

theorem repaired_rebuild (h : s.chainBehind shortroomid shortEid authShorts = none)
    {rows : AList fun _ : Nat => List Nat} {db : Data} (hrow : rows.lookup shortEid = some authShorts)
    (hrows : ∀ n, n ≠ shortEid → rows.lookup n = s.store.shortauthevents.lookup n)
    (hdb : ∀ key, (db.getCachedEventidAuthchain key).1 = (s.db.getCachedEventidAuthchain key).1) :
    Repaired shortroomid shortEid id authShorts s
      (rebuild shortroomid shortEid id authShorts
        { s with store := { s.store with shortauthevents := rows }, db := db }) where
  pdus := rfl
  behind := by
    unfold chainAt
    rw [h]
    unfold State.chainBehind rebuild
    simp only [hrow, if_true, Data.get_cache, Option.getD_none]
  others n row hn := by
    have hkey : ((shortroomid, n) : Nat × Nat) ≠ (shortroomid, shortEid) := fun heq => hn (Prod.mk.inj heq).2
    unfold State.chainBehind rebuild
    simp only [hrows n hn, Data.get_cache, if_neg hkey, hdb]
  cache := by
    unfold chainAt
    rw [h]
    rfl
  written := by
    unfold chainAt
    rw [h]
    rfl

theorem repaired_repair :
    Repaired shortroomid shortEid id authShorts s (s.repair shortroomid shortEid id authShorts) := by
  unfold repair
  by_cases hrow : s.store.shortauthevents.lookup shortEid = some authShorts
  · rw [if_neg (not_not_intro hrow)]
    have hbehind : s.chainBehind shortroomid shortEid authShorts =
        (s.db.getCachedEventidAuthchain (shortroomid, shortEid)).1 := if_pos hrow
    have hdb := s.db.get_get (shortroomid, shortEid)
    cases hfirst : s.db.getCachedEventidAuthchain (shortroomid, shortEid) with
    | mk found db =>
      rw [hfirst] at hbehind hdb
      cases found with
      | none => exact repaired_rebuild hbehind hrow (fun _ _ => rfl) hdb
      | some chain =>
        -- The second request finds what the first one found.
        have hdb' := db.get_get (shortroomid, shortEid)
        have hsame := hdb (shortroomid, shortEid)
        cases hagain : db.getCachedEventidAuthchain (shortroomid, shortEid) with
        | mk found' db' =>
          rw [hagain] at hdb' hsame
          rw [hfirst] at hsame
          cases hsame
          simp only [hagain]
          have hchain : s.chainAt shortroomid shortEid authShorts = chain := by
            unfold chainAt
            rw [hbehind]
            rfl
          have hstay : ∀ n row,
              State.chainBehind shortroomid ⟨s.store, db'⟩ n row = s.chainBehind shortroomid n row := by
            intro n row
            unfold State.chainBehind
            simp only [hdb', hdb]
          refine ⟨rfl, ?_, fun n row _ => hstay n row, ?_, ?_⟩
          · rw [hchain]
            exact (hstay _ _).trans hbehind
          · rw [hchain]
          · rw [hbehind]
            exact (List.append_nil _).symm
  · rw [if_pos hrow]
    exact repaired_rebuild (if_neg hrow) (AList.lookup_insert _)
      (fun n hn => AList.lookup_insert_ne hn) fun _ => rfl

theorem repair_events : (s.repair shortroomid shortEid id authShorts).store.events = s.store.events := by
  unfold repair
  split
  · rfl
  · split
    · rfl
    · split <;> rfl

end

/-! ## What a visit does -/

section
variable {shortroomid : Nat} {numbers : Enumeration EventId} {st : State} {before : List EventId} {s : Sweep}
  {id : EventId} {pdu : Pdu}

theorem mem_numberEvent_self (events : Enumeration EventId) : id ∈ (numberEvent events id pdu).items :=
  Enumeration.mem_numberAll.mpr
    (.inl (Enumeration.mem_numberAll.mpr (.inl (Enumeration.mem_number.mpr (.inr rfl)))))

theorem mem_numberEvent_auth (events : Enumeration EventId) {a : EventId} (ha : a ∈ pdu.authEvents) :
    a ∈ (numberEvent events id pdu).items :=
  Enumeration.mem_numberAll.mpr (.inr ha)

theorem le_numberEvent (events : Enumeration EventId) (id : EventId) (pdu : Pdu) :
    events ≤ numberEvent events id pdu :=
  Enumeration.le_trans (Enumeration.le_trans (events.le_number id) (Enumeration.le_numberAll _ _))
    (Enumeration.le_numberAll _ _)

theorem numbering_concat (st : Store) (before : List EventId) (id : EventId) :
    st.numbering (before ++ [id]) =
      (st.eventidPdu.lookup id).elim (st.numbering before) (numberEvent (st.numbering before) id) := by
  unfold Store.numbering
  rw [List.foldl_append, List.foldl_cons, List.foldl_nil]

theorem numbering_le (st : Store) (before : List EventId) (id : EventId) :
    st.numbering before ≤ st.numbering (before ++ [id]) := by
  rw [numbering_concat]
  cases st.eventidPdu.lookup id with
  | none => exact Enumeration.le_refl _
  | some pdu => exact le_numberEvent _ id pdu

theorem kept_of_stored (shortroomid : Nat) (numbers : Enumeration EventId) (st : State)
    (hpdu : st.store.eventidPdu.lookup id = some pdu) : st.kept shortroomid numbers id =
    st.chainBehind shortroomid (numbers.short id) (pdu.authEvents.map numbers.short) := by
  unfold State.kept
  rw [hpdu]
  rfl

theorem visit_eq (hpdu : s.store.eventidPdu.lookup id = some pdu)
    (hle : numberEvent s.store.events id pdu ≤ numbers) :
    s.visit shortroomid id = repair shortroomid (numbers.short id) id (pdu.authEvents.map numbers.short)
      { s with store := { s.store with events := numberEvent s.store.events id pdu } } := by
  have hmap : pdu.authEvents.map numbers.short = pdu.authEvents.map (numberEvent s.store.events id pdu).short :=
    List.map_congr_left fun a ha => Enumeration.short_of_le hle (mem_numberEvent_auth _ ha)
  unfold visit
  rw [hpdu, hmap, Enumeration.short_of_le hle (mem_numberEvent_self _)]

/-- What the sweep knows after the events that it has come by. -/
structure Swept (shortroomid : Nat) (numbers : Enumeration EventId) (st : State)
    (before : List EventId) (s : Sweep) :
    Prop where
  pdus : s.store.eventidPdu = st.store.eventidPdu
  events : s.store.events = st.store.numbering before
  fresh : ∀ a ∈ numbers.items, a ∉ before → s.kept shortroomid numbers a = st.kept shortroomid numbers a
  noted : ∀ a ∈ numbers.items, ∀ chain, s.authChainCache.lookup (numbers.short a) = some chain →
    a ∈ before ∧ s.kept shortroomid numbers a = some chain ∧
      (st.kept shortroomid numbers a = some chain ∨
        st.kept shortroomid numbers a = none ∧ (a, chain) ∈ s.written)
  seen : ∀ a ∈ before, ∀ pdu, st.store.eventidPdu.lookup a = some pdu →
    ∃ chain, s.authChainCache.lookup (numbers.short a) = some chain

theorem swept_start : Swept shortroomid numbers st [] ⟨st, ∅, []⟩ where
  pdus := rfl
  events := rfl
  fresh _ _ _ := rfl
  noted _ _ _ h := nomatch h
  seen _ h := nomatch h

namespace Swept

theorem visit_of_missing (h : Swept shortroomid numbers st before s)
    (hnone : st.store.eventidPdu.lookup id = none) :
    s.visit shortroomid id = s := by
  unfold Sweep.visit
  rw [h.pdus, hnone]

theorem repaired (h : Swept shortroomid numbers st before s) (hpdu : st.store.eventidPdu.lookup id = some pdu)
    (hle : st.store.numbering (before ++ [id]) ≤ numbers) :
    Repaired shortroomid (numbers.short id) id (pdu.authEvents.map numbers.short) s (s.visit shortroomid id) ∧
      (s.visit shortroomid id).store.events = st.store.numbering (before ++ [id]) := by
  rw [numbering_concat, hpdu, Option.elim_some, ← h.events] at hle ⊢
  rw [visit_eq (h.pdus ▸ hpdu) hle]
  have hrepaired : Repaired shortroomid (numbers.short id) id (pdu.authEvents.map numbers.short)
      { s with store := { s.store with events := numberEvent s.store.events id pdu } } _ := repaired_repair
  exact ⟨⟨hrepaired.pdus, hrepaired.behind, hrepaired.others, hrepaired.cache, hrepaired.written⟩, repair_events⟩

theorem mem_items (hpdu : st.store.eventidPdu.lookup id = some pdu)
    (hle : st.store.numbering (before ++ [id]) ≤ numbers) :
    id ∈ numbers.items ∧ ∀ a ∈ pdu.authEvents, a ∈ numbers.items := by
  rw [numbering_concat, hpdu] at hle
  exact ⟨Enumeration.mem_of_le hle (mem_numberEvent_self _),
    fun a ha => Enumeration.mem_of_le hle (mem_numberEvent_auth _ ha)⟩

theorem kept_again (h : Swept shortroomid numbers st before s) (hpdu : st.store.eventidPdu.lookup id = some pdu)
    (hid : id ∈ numbers.items) (hbefore : id ∈ before) :
    ∃ chain, s.authChainCache.lookup (numbers.short id) = some chain ∧
      s.kept shortroomid numbers id = some chain := by
  obtain ⟨chain, hchain⟩ := h.seen id hbefore pdu hpdu
  exact ⟨chain, hchain, (h.noted id hid chain hchain).2.1⟩

theorem origin (h : Swept shortroomid numbers st before s) (hpdu : st.store.eventidPdu.lookup id = some pdu)
    (hle : st.store.numbering (before ++ [id]) ≤ numbers) :
    let chain := s.chainAt shortroomid (numbers.short id) (pdu.authEvents.map numbers.short)
    st.kept shortroomid numbers id = some chain ∨
      st.kept shortroomid numbers id = none ∧ (id, chain) ∈ (s.visit shortroomid id).written := by
  intro chain
  have hid := (mem_items hpdu hle).1
  have hkept := kept_of_stored shortroomid numbers s.toState (h.pdus ▸ hpdu)
  have hwritten := (h.repaired hpdu hle).1.written
  by_cases hb : id ∈ before
  · obtain ⟨old, hlocal, hold⟩ := h.kept_again hpdu hid hb
    have hchain : chain = old := by
      unfold chain chainAt
      rw [← hkept, hold]
      rfl
    rw [hchain, hwritten]
    exact (h.noted id hid old hlocal).2.2.imp_right fun ⟨hnone, hmem⟩ => ⟨hnone, List.mem_append_left _ hmem⟩
  · rw [h.fresh id hid hb] at hkept
    unfold chain chainAt at *
    cases hbehind : s.chainBehind shortroomid (numbers.short id) (pdu.authEvents.map numbers.short) with
    | some old => exact .inl (hkept.trans hbehind)
    | none =>
      refine .inr ⟨hkept.trans hbehind, ?_⟩
      rw [hwritten, hbehind]
      exact List.mem_append_right _ List.mem_cons_self

theorem not_mem_of_concat {a : EventId} (h : a ∉ before ++ [id]) : a ∉ before ∧ a ≠ id :=
  ⟨fun ha => h (List.mem_append_left _ ha), fun heq => h (List.mem_append_right _ (List.mem_singleton.mpr heq))⟩

theorem skip (h : Swept shortroomid numbers st before s) (hnone : st.store.eventidPdu.lookup id = none) :
    Swept shortroomid numbers st (before ++ [id]) s where
  pdus := h.pdus
  events := by
    rw [numbering_concat, hnone]
    exact h.events
  fresh a ha hb := h.fresh a ha (not_mem_of_concat hb).1
  noted a ha chain hchain := by
    obtain ⟨hb, hrest⟩ := h.noted a ha chain hchain
    exact ⟨List.mem_append_left _ hb, hrest⟩
  seen a ha pdu hpdu := by
    rcases List.mem_append.mp ha with ha | ha
    · exact h.seen a ha pdu hpdu
    · rw [List.mem_singleton.mp ha, hnone] at hpdu
      cases hpdu

theorem kept_other (h : Swept shortroomid numbers st before s) (hpdu : st.store.eventidPdu.lookup id = some pdu)
    (hle : st.store.numbering (before ++ [id]) ≤ numbers) {a : EventId} (ha : a ∈ numbers.items) (hne : a ≠ id) :
    (s.visit shortroomid id).kept shortroomid numbers a = s.kept shortroomid numbers a := by
  have hrepaired := (h.repaired hpdu hle).1
  unfold State.kept
  rw [hrepaired.pdus]
  congr 1
  funext pdu'
  exact hrepaired.others _ _ fun heq => hne (Enumeration.short_inj ha (mem_items hpdu hle).1 heq)

theorem visit (h : Swept shortroomid numbers st before s) (hle : st.store.numbering (before ++ [id]) ≤ numbers) :
    Swept shortroomid numbers st (before ++ [id]) (s.visit shortroomid id) := by
  cases hpdu : st.store.eventidPdu.lookup id with
  | none =>
    rw [h.visit_of_missing hpdu]
    exact h.skip hpdu
  | some pdu =>
    obtain ⟨hid, -⟩ := mem_items hpdu hle
    obtain ⟨hrepaired, hevents⟩ := h.repaired hpdu hle
    have hpdus := hrepaired.pdus.trans h.pdus
    have hself := kept_of_stored shortroomid numbers (s.visit shortroomid id).toState (hpdus ▸ hpdu)
    refine ⟨hpdus, hevents, fun a ha hb => ?_, fun a ha chain hchain => ?_, fun a ha pdu' hpdu' => ?_⟩
    · obtain ⟨hb, hne⟩ := not_mem_of_concat hb
      exact (h.kept_other hpdu hle ha hne).trans (h.fresh a ha hb)
    · rw [hrepaired.cache, AList.lookup_insert_ite] at hchain
      split at hchain
      · rename_i heq
        have heq := Enumeration.short_inj ha hid heq
        subst heq
        cases hchain
        exact ⟨List.mem_append_right _ List.mem_cons_self, hself.trans hrepaired.behind, h.origin hpdu hle⟩
      · rename_i hne
        obtain ⟨hb, hkept, horigin⟩ := h.noted a ha chain hchain
        have hsame := h.kept_other hpdu hle ha fun heq => hne (by rw [heq])
        refine ⟨List.mem_append_left _ hb, hsame.trans hkept, horigin.imp_right (And.imp_right fun hmem => ?_)⟩
        rw [hrepaired.written]
        exact List.mem_append_left _ hmem
    · rw [hrepaired.cache, AList.lookup_insert_ite]
      split
      · exact ⟨_, rfl⟩
      · rename_i hne
        rcases List.mem_append.mp ha with ha | ha
        · exact h.seen a ha pdu' hpdu'
        · exact absurd (by rw [List.mem_singleton.mp ha]) hne

/-! ## When a built chain is exact -/

theorem local_of_kept (h : Swept shortroomid numbers st before s) {a : EventId} (ha : a ∈ numbers.items)
    (hb : a ∈ before) {chain : Bitmap} (hkept : st.kept shortroomid numbers a = some chain) :
    s.authChainCache.lookup (numbers.short a) = some chain := by
  obtain ⟨pdu, hpdu, -⟩ := Option.bind_eq_some_iff.mp hkept
  obtain ⟨chain', hlocal⟩ := h.seen a hb pdu hpdu
  rcases (h.noted a ha chain' hlocal).2.2 with hkept' | ⟨hnone, -⟩
  · rw [hkept, Option.some.injEq] at hkept'
    rw [hlocal, hkept']
  · rw [hkept] at hnone
    cases hnone

theorem local_iff_known (h : Swept shortroomid numbers st before s)
    (hexact : ∀ w ∈ s.written, st.store.Exact numbers w.1 w.2) {a b : EventId} (ha : a ∈ numbers.items) :
    (∃ chain, s.authChainCache.lookup (numbers.short a) = some chain ∧ Has numbers chain b) ↔
      a ∈ before ∧ st.Known shortroomid numbers a b := by
  unfold State.Known
  constructor
  · rintro ⟨chain, hlocal, n, hn, hget⟩
    obtain ⟨hb, -, hkept | ⟨hnone, hmem⟩⟩ := h.noted a ha chain hlocal
    · rw [hkept]
      exact ⟨hb, n, hn, hget⟩
    · rw [hnone]
      obtain ⟨b', hget', habove⟩ := (hexact _ hmem).sound n hn
      rw [hget, Option.some.injEq] at hget'
      exact ⟨hb, hget' ▸ habove⟩
  · rintro ⟨hb, hknown⟩
    cases hkept : st.kept shortroomid numbers a with
    | some chain =>
      rw [hkept] at hknown
      exact ⟨chain, h.local_of_kept ha hb hkept, hknown⟩
    | none =>
      rw [hkept] at hknown
      obtain ⟨_, ⟨pdu, hpdu, -⟩, -⟩ := Relation.TransGen.head'_iff.mp hknown
      obtain ⟨chain, hlocal⟩ := h.seen a hb pdu hpdu
      rcases (h.noted a ha chain hlocal).2.2 with hkept' | ⟨-, hmem⟩
      · rw [hkept] at hkept'
        cases hkept'
      · exact ⟨chain, hlocal, (hexact _ hmem).whole b hknown⟩

theorem has_fullChain (h : Swept shortroomid numbers st before s)
    (hexact : ∀ w ∈ s.written, st.store.Exact numbers w.1 w.2) (hpdu : st.store.eventidPdu.lookup id = some pdu)
    (hauth : ∀ a ∈ pdu.authEvents, a ∈ numbers.items) {b : EventId} :
    Has numbers (fullChain s.authChainCache (pdu.authEvents.map numbers.short)) b ↔
      st.store.Cites id b ∨ ∃ a ∈ before, st.store.Cites id a ∧ st.Known shortroomid numbers a b := by
  constructor
  · rintro ⟨n, hn, hget⟩
    obtain ⟨m, hm, hcase⟩ := mem_fullChain.mp hn
    obtain ⟨a, ha, rfl⟩ := List.mem_map.mp hm
    rcases hcase with rfl | ⟨chain, hlocal, hn⟩
    · rw [Enumeration.get?_short (hauth a ha), Option.some.injEq] at hget
      exact .inl ⟨pdu, hpdu, hget ▸ ha⟩
    · obtain ⟨hb, hknown⟩ := (h.local_iff_known hexact (hauth a ha)).mp ⟨chain, hlocal, n, hn, hget⟩
      exact .inr ⟨a, hb, ⟨pdu, hpdu, ha⟩, hknown⟩
  · have hcited : ∀ a, st.store.Cites id a → a ∈ pdu.authEvents := by
      rintro a ⟨pdu', hpdu', ha⟩
      rw [hpdu, Option.some.injEq] at hpdu'
      exact hpdu' ▸ ha
    rintro (hcites | ⟨a, hb, hcites, hknown⟩)
    · have hb := hcited b hcites
      exact ⟨numbers.short b, mem_fullChain.mpr ⟨_, List.mem_map_of_mem hb, .inl rfl⟩,
        Enumeration.get?_short (hauth b hb)⟩
    · have ha := hcited a hcites
      obtain ⟨chain, hlocal, n, hn, hget⟩ := (h.local_iff_known hexact (hauth a ha)).mpr ⟨hb, hknown⟩
      exact ⟨n, mem_fullChain.mpr ⟨_, List.mem_map_of_mem ha, .inr ⟨chain, hlocal, hn⟩⟩, hget⟩

theorem exact_iff (h : Swept shortroomid numbers st before s)
    (hexact : ∀ w ∈ s.written, st.store.Exact numbers w.1 w.2) (hpdu : st.store.eventidPdu.lookup id = some pdu)
    (hauth : ∀ a ∈ pdu.authEvents, a ∈ numbers.items) :
    st.store.Exact numbers id (fullChain s.authChainCache (pdu.authEvents.map numbers.short)) ↔
      st.Covered shortroomid numbers before id := by
  constructor
  · rintro ⟨sound, whole⟩
    refine ⟨fun b hb => (h.has_fullChain hexact hpdu hauth).mp (whole b hb), ?_⟩
    rintro a hb ⟨pdu', hpdu', ha⟩ chain hkept n hn
    rw [hpdu, Option.some.injEq] at hpdu'
    subst hpdu'
    exact sound n (mem_fullChain.mpr
      ⟨_, List.mem_map_of_mem ha, .inr ⟨chain, h.local_of_kept (hauth a ha) hb hkept, hn⟩⟩)
  · rintro ⟨found, nothingElse⟩
    refine ⟨fun n hn => ?_, fun b hb => (h.has_fullChain hexact hpdu hauth).mpr (found b hb)⟩
    obtain ⟨m, hm, hcase⟩ := mem_fullChain.mp hn
    obtain ⟨a, ha, rfl⟩ := List.mem_map.mp hm
    have hcites : st.store.Cites id a := ⟨pdu, hpdu, ha⟩
    rcases hcase with rfl | ⟨chain, hlocal, hn⟩
    · exact ⟨a, Enumeration.get?_short (hauth a ha), .single hcites⟩
    · obtain ⟨hb, -, hkept | ⟨-, hmem⟩⟩ := h.noted a (hauth a ha) chain hlocal
      · exact nothingElse a hb hcites chain hkept n hn
      · obtain ⟨b, hget, habove⟩ := (hexact _ hmem).sound n hn
        exact ⟨b, hget, .head hcites habove⟩

/-- A visit writes only for a stored event that comes up for the first time and has no kept
chain. -/
theorem mem_written_visit (h : Swept shortroomid numbers st before s)
    (hle : st.store.numbering (before ++ [id]) ≤ numbers) {w : EventId × Bitmap} :
    w ∈ (s.visit shortroomid id).written ↔ w ∈ s.written ∨
      id ∉ before ∧ st.kept shortroomid numbers id = none ∧ ∃ pdu, st.store.eventidPdu.lookup id = some pdu ∧
        w = (id, fullChain s.authChainCache (pdu.authEvents.map numbers.short)) := by
  cases hpdu : st.store.eventidPdu.lookup id with
  | none =>
    rw [h.visit_of_missing hpdu]
    exact (or_iff_left fun ⟨_, _, _, hnone, _⟩ => nomatch hnone).symm
  | some pdu =>
    have hid := (mem_items hpdu hle).1
    have hkept := kept_of_stored shortroomid numbers s.toState (h.pdus ▸ hpdu)
    rw [(h.repaired hpdu hle).1.written, List.mem_append, ← hkept]
    refine or_congr_right ?_
    unfold chainAt
    rw [← hkept]
    by_cases hb : id ∈ before
    · obtain ⟨chain, -, hchain⟩ := h.kept_again hpdu hid hb
      simp [hchain, hb]
    · rw [h.fresh id hid hb]
      cases st.kept shortroomid numbers id with
      | some chain => simp
      | none => simp [hb]

end Swept

theorem covered_of_missing (hnone : st.store.eventidPdu.lookup id = none) :
    st.Covered shortroomid numbers before id where
  found b hb := by
    obtain ⟨_, ⟨pdu, hpdu, -⟩, -⟩ := Relation.TransGen.head'_iff.mp hb
    rw [hnone] at hpdu
    cases hpdu
  nothingElse a _ := by
    rintro ⟨pdu, hpdu, -⟩
    rw [hnone] at hpdu
    cases hpdu

theorem Swept.visit_exact_iff (h : Swept shortroomid numbers st before s)
    (hle : st.store.numbering (before ++ [id]) ≤ numbers) :
    (∀ w ∈ (s.visit shortroomid id).written, st.store.Exact numbers w.1 w.2) ↔
      (∀ w ∈ s.written, st.store.Exact numbers w.1 w.2) ∧
        (id ∉ before → st.kept shortroomid numbers id = none → st.Covered shortroomid numbers before id) := by
  constructor
  · intro hall
    have hold : ∀ w ∈ s.written, st.store.Exact numbers w.1 w.2 :=
      fun w hw => hall w ((h.mem_written_visit hle).mpr (.inl hw))
    refine ⟨hold, fun hnew hnone => ?_⟩
    cases hpdu : st.store.eventidPdu.lookup id with
    | none => exact covered_of_missing hpdu
    | some pdu =>
      rw [← h.exact_iff hold hpdu (mem_items hpdu hle).2]
      exact hall _ ((h.mem_written_visit hle).mpr (.inr ⟨hnew, hnone, pdu, hpdu, rfl⟩))
  · rintro ⟨hold, hcovered⟩ w hw
    rcases (h.mem_written_visit hle).mp hw with hw | ⟨hnew, hnone, pdu, hpdu, rfl⟩
    · exact hold w hw
    · exact (h.exact_iff hold hpdu (mem_items hpdu hle).2).mpr (hcovered hnew hnone)

theorem reindexShort_concat (shortroomid : Nat) (st : State) (events : List EventId) (id : EventId) :
    reindexShort shortroomid st (events ++ [id]) = (reindexShort shortroomid st events).visit shortroomid id := by
  unfold reindexShort
  rw [List.foldl_append, List.foldl_cons, List.foldl_nil]

theorem swept_reindexShort {events : List EventId} (hle : st.store.numbering events ≤ numbers) :
    Swept shortroomid numbers st events (reindexShort shortroomid st events) := by
  induction events using List.reverseRecOn with
  | nil => exact swept_start
  | append_singleton events id ih =>
    rw [reindexShort_concat]
    exact (ih (Enumeration.le_trans (numbering_le _ _ _) hle)).visit hle

theorem written_exact_iff {events : List EventId} (hle : st.store.numbering events ≤ numbers) :
    (∀ w ∈ (reindexShort shortroomid st events).written, st.store.Exact numbers w.1 w.2) ↔
      ∀ before id, before ++ [id] <+: events → id ∉ before → st.kept shortroomid numbers id = none →
        st.Covered shortroomid numbers before id := by
  induction events using List.reverseRecOn with
  | nil =>
    refine iff_of_true (fun w hw => nomatch hw) fun before id hpre => ?_
    simp at hpre
  | append_singleton events id ih =>
    have hle' := Enumeration.le_trans (numbering_le _ _ _) hle
    rw [reindexShort_concat, (swept_reindexShort hle').visit_exact_iff hle, ih hle']
    constructor
    · rintro ⟨hold, hlast⟩ before id' hpre
      rcases List.prefix_concat_iff.mp hpre with heq | hpre
      · obtain ⟨rfl, hid⟩ := List.append_inj' heq rfl
        obtain rfl := List.singleton_inj.mp hid
        exact hlast
      · exact hold before id' hpre
    · intro hall
      exact ⟨fun before id' hpre => hall before id' (hpre.trans (List.prefix_append _ _)),
        hall events id List.prefix_rfl⟩

end

/-- The chains that a sweep writes are exact just if, for each event whose chain it builds,
the auth events that come before it lead to all that is above it: an event above it that is
not itself an auth event of it has to be above one of those, or in the chain that was kept
for it, and kept chains have nothing else. -/
theorem reindex_chains_exact_iff (shortroomid : Nat) (st : State) (events : List EventId) :
    (∀ w ∈ (reindexShort shortroomid st events).written,
      (reindexShort shortroomid st events).store.Exact (reindexShort shortroomid st events).store.events w.1 w.2) ↔
      ∀ before id, before ++ [id] <+: events → id ∉ before →
        st.kept shortroomid (st.store.numbering events) id = none →
        st.Covered shortroomid (st.store.numbering events) before id := by
  have hswept : Swept shortroomid (st.store.numbering events) st events (reindexShort shortroomid st events) :=
    swept_reindexShort (Enumeration.le_refl _)
  rw [hswept.events, ← written_exact_iff (Enumeration.le_refl _)]
  exact forall₂_congr fun w _ => Store.exact_congr hswept.pdus

def citing (id : EventId) (authEvents : List EventId) : Pdu :=
  ⟨id, some "!r:a", "@alice:a", 0, .other "m.room.topic", .null, some "", [], 1, authEvents, none, false⟩

/-- Three events each above the next, of which the one in the middle is an outlier. -/
def outlierBetween : Store :=
  ((Store.empty.arrive (citing "$c" []) true).arrive (citing "$p" ["$c"]) false).arrive (citing "$t" ["$p"]) true

/-- The chain of the last event stops at the outlier. -/
theorem chain_stops_at_outlier :
    ¬∀ w ∈ (reindexShort 1 ⟨outlierBetween, .empty⟩ ["$c", "$t"]).written,
      (reindexShort 1 ⟨outlierBetween, .empty⟩ ["$c", "$t"]).store.Exact
        (reindexShort 1 ⟨outlierBetween, .empty⟩ ["$c", "$t"]).store.events w.1 w.2 := by
  intro h
  have hrun : (reindexShort 1 ⟨outlierBetween, .empty⟩ ["$c", "$t"]).written.map (fun w => (w.1, w.2.elements)) =
      [("$c", []), ("$t", [2])] := by decide
  have hlast : ("$t", [2]) ∈ (reindexShort 1 ⟨outlierBetween, .empty⟩ ["$c", "$t"]).written.map
      (fun w => (w.1, w.2.elements)) := by
    rw [hrun]
    decide
  obtain ⟨⟨id, chain⟩, hw, heq⟩ := List.mem_map.mp hlast
  obtain ⟨rfl, hchain⟩ := Prod.mk.inj heq
  have hp : (reindexShort 1 ⟨outlierBetween, .empty⟩ ["$c", "$t"]).store.Cites "$t" "$p" := by decide
  have hc : (reindexShort 1 ⟨outlierBetween, .empty⟩ ["$c", "$t"]).store.Cites "$p" "$c" := by decide
  obtain ⟨n, hn, hget⟩ := (h _ hw).whole "$c" (.tail (.single hp) hc)
  have hn : n ∈ chain.elements := hn
  rw [hchain, List.mem_singleton] at hn
  subst hn
  exact absurd hget (by decide)

end Sweep

end Congruent.AuthChain
