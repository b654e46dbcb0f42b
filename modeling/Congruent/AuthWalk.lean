import Mathlib.Data.Finset.Card
import Congruent.AuthChain

/-!
# What the walk of an auth chain finds

A chain that was found whole stays right: all on it have stored auth edges, so later events
add none. A walk that takes such chains from the cache finds all that the event needs and
nothing else, and it ends.
-/

namespace Congruent.AuthChain

open EventWrites (Bitmap)
open Relation (ReflTransGen TransGen)

section
variable {c : Codec} {st st' : Store} {room : RoomId} {id b : EventId} {ids : List EventId} {pdu : Pdu}

/-! ## The store -/

namespace Store

def Indexed (st : Store) (id : EventId) : Prop :=
  ∃ n row, st.events.get? n = some id ∧ st.shortauthevents.lookup n = some row

structure Valid (c : Codec) (st : Store) : Prop where
  /-- A row holds the auth events of a stored event. -/
  rows : ∀ n row, st.shortauthevents.lookup n = some row →
    ∃ id pdu, st.events.get? n = some id ∧ st.eventidPdu.lookup id = some pdu ∧
      row.map st.events.get? = pdu.authEvents.map some
  rooted : ∀ id pdu room, st.eventidPdu.lookup id = some pdu → pdu.roomIdOrHash c = some room →
    createId c room = some id → pdu.authEvents = []

theorem getPduInRoom_eq_some_iff :
    st.getPduInRoom c room id = some pdu ↔ st.eventidPdu.lookup id = some pdu ∧ pdu.roomIdOrHash c = some room := by
  simp [getPduInRoom, Option.filter_eq_some_iff]

theorem filterMap_row {row : List Nat} (h : row.map st.events.get? = ids.map some) :
    row.filterMap st.events.get? = ids := by
  have hid := congrArg (List.filterMap id) h
  simpa [List.filterMap_map, Function.comp_def] using hid

/-- By its row an event has the auth events it cites, and so has a stored event of the room
without a row. -/
theorem storedAuthEvents_eq_some_iff (h : st.Valid c) :
    st.storedAuthEvents c room id = some ids ↔
      ∃ pdu, st.eventidPdu.lookup id = some pdu ∧ ids = pdu.authEvents ∧
        (st.Indexed id ∨ pdu.roomIdOrHash c = some room) := by
  unfold storedAuthEvents
  split
  · rename_i row hrow
    obtain ⟨n, hn, hrow⟩ := Option.bind_eq_some_iff.mp hrow
    rw [Enumeration.short?_eq_some_iff] at hn
    obtain ⟨id', pdu, hn', hpdu, hmap⟩ := h.rows n row hrow
    rw [hn, Option.some.injEq] at hn'
    subst hn'
    rw [filterMap_row hmap, Option.some.injEq]
    constructor
    · rintro rfl
      exact ⟨pdu, hpdu, rfl, .inl ⟨n, row, hn, hrow⟩⟩
    · rintro ⟨pdu', hpdu', rfl, -⟩
      rw [hpdu, Option.some.injEq] at hpdu'
      rw [hpdu']
  · rename_i hnone
    have hnot : ¬ st.Indexed id := by
      rintro ⟨n, row, hn, hrow⟩
      rw [Enumeration.short?_eq_some_iff.mpr hn, Option.bind_some, hrow] at hnone
      cases hnone
    rw [Option.map_eq_some_iff]
    constructor
    · rintro ⟨pdu, hpdu, rfl⟩
      obtain ⟨hpdu, hroom⟩ := getPduInRoom_eq_some_iff.mp hpdu
      exact ⟨pdu, hpdu, rfl, .inr hroom⟩
    · rintro ⟨pdu, hpdu, rfl, hin⟩
      exact ⟨pdu, getPduInRoom_eq_some_iff.mpr ⟨hpdu, hin.resolve_left hnot⟩, rfl⟩

def cited (st : Store) : List EventId := st.eventidPdu.entries.flatMap fun e => e.2.authEvents

theorem AuthEdge.mem_cited (h : st.Valid c) (hedge : st.AuthEdge c room id b) : b ∈ st.cited := by
  obtain ⟨ids, hids, hb⟩ := hedge
  obtain ⟨pdu, hpdu, rfl, -⟩ := (storedAuthEvents_eq_some_iff h).mp hids
  exact List.mem_flatMap.mpr ⟨⟨id, pdu⟩, AList.mem_entries_iff.mpr hpdu, hb⟩

/-! ### Stores that grow -/

/-- Later stores keep the short ids, the events and the rows. -/
structure Grows (st st' : Store) : Prop where
  rooms : st.rooms ≤ st'.rooms
  events : st.events ≤ st'.events
  pdus : ∀ id pdu, st.eventidPdu.lookup id = some pdu → st'.eventidPdu.lookup id = some pdu
  indexed : ∀ id, st.Indexed id → st'.Indexed id

namespace Grows

theorem refl (st : Store) : Grows st st := ⟨st.rooms.le_refl, st.events.le_refl, fun _ _ h => h, fun _ h => h⟩

theorem storedAuthEvents (hg : Grows st st') (h : st.Valid c) (h' : st'.Valid c)
    (hids : st.storedAuthEvents c room id = some ids) : st'.storedAuthEvents c room id = some ids := by
  obtain ⟨pdu, hpdu, rfl, hin⟩ := (storedAuthEvents_eq_some_iff h).mp hids
  exact (storedAuthEvents_eq_some_iff h').mpr ⟨pdu, hg.pdus id pdu hpdu, rfl, hin.imp_left (hg.indexed id)⟩

theorem authEdge (hg : Grows st st') (h : st.Valid c) (h' : st'.Valid c) (hedge : st.AuthEdge c room id b) :
    st'.AuthEdge c room id b := by
  obtain ⟨ids, hids, hb⟩ := hedge
  exact ⟨ids, hg.storedAuthEvents h h' hids, hb⟩

theorem derivedCreate (hg : Grows st st') (h : st.DerivedCreate c room id) : st'.DerivedCreate c room id := by
  obtain ⟨hid, hmem, hpdu⟩ := h
  obtain ⟨pdu, hpdu⟩ := Option.isSome_iff_exists.mp hpdu
  obtain ⟨hpdu, hroom⟩ := getPduInRoom_eq_some_iff.mp hpdu
  refine ⟨hid, Enumeration.mem_of_le hg.events hmem, Option.isSome_iff_exists.mpr ⟨pdu, ?_⟩⟩
  exact getPduInRoom_eq_some_iff.mpr ⟨hg.pdus id pdu hpdu, hroom⟩

end Grows

theorem Valid.row_numbered {n m : Nat} {row : List Nat} (h : st.Valid c)
    (hrow : st.shortauthevents.lookup n = some row)
    (hm : m ∈ row) : ∃ b, st.events.get? m = some b := by
  obtain ⟨id, pdu, -, -, hmap⟩ := h.rows n row hrow
  have hsome : st.events.get? m ∈ pdu.authEvents.map some := hmap ▸ List.mem_map_of_mem hm
  obtain ⟨b, -, hb⟩ := List.mem_map.mp hsome
  exact ⟨b, hb.symm⟩

theorem Valid.number {events : Enumeration EventId} (h : st.Valid c) (hle : st.events ≤ events) :
    Valid c { st with events := events } := by
  refine ⟨fun n row hrow => ?_, h.rooted⟩
  obtain ⟨id, pdu, hn, hpdu, hmap⟩ := h.rows n row hrow
  refine ⟨id, pdu, Enumeration.get?_of_le hle hn, hpdu, ?_⟩
  rw [← hmap]
  refine List.map_congr_left fun m hm => ?_
  obtain ⟨b, hb⟩ := h.row_numbered hrow hm
  rw [hb]
  exact Enumeration.get?_of_le hle hb

theorem grows_number {events : Enumeration EventId} (hle : st.events ≤ events) : Grows st
    { st with events := events } :=
  ⟨st.rooms.le_refl, hle, fun _ _ h => h, fun _ ⟨n, row, hn, hrow⟩ => ⟨n, row, Enumeration.get?_of_le hle hn, hrow⟩⟩

theorem storedAuthEvents_number {events : Enumeration EventId} (h : st.Valid c) (hle : st.events ≤ events) :
    Store.storedAuthEvents c { st with events := events } room id = st.storedAuthEvents c room id := by
  refine Option.ext fun ids => ?_
  rw [storedAuthEvents_eq_some_iff (h.number hle), storedAuthEvents_eq_some_iff h]
  have hindexed : Indexed { st with events := events } id ↔ st.Indexed id := by
    constructor
    · rintro ⟨n, row, hn, hrow⟩
      obtain ⟨id', -, hn', -⟩ := h.rows n row hrow
      have heq : events.get? n = some id' := Enumeration.get?_of_le hle hn'
      rw [hn, Option.some.injEq] at heq
      exact ⟨n, row, heq ▸ hn', hrow⟩
    · exact (grows_number hle).indexed id
  rw [hindexed]

theorem storedAuthEvents_at {events : Enumeration EventId} {n : Nat} (room : RoomId) (h : st.Valid c)
    (hle : st.events ≤ events)
    (hn : events.get? n = some id) : st.storedAuthEvents c room id =
      match st.shortauthevents.lookup n with
      | some row => some (row.filterMap events.get?)
      | none => (st.getPduInRoom c room id).map (·.authEvents) := by
  rw [← storedAuthEvents_number h hle]
  unfold storedAuthEvents
  rw [Enumeration.short?_eq_some_iff.mpr hn, Option.bind_some]
  rfl

theorem authEdge_number {events : Enumeration EventId} (h : st.Valid c) (hle : st.events ≤ events) :
    AuthEdge c { st with events := events } room id b ↔ st.AuthEdge c room id b := by
  unfold AuthEdge
  rw [storedAuthEvents_number h hle]

/-! ### Arrivals -/

theorem grows_rooms {rooms : Enumeration RoomId} (hle : st.rooms ≤ rooms) : Grows st { st with rooms := rooms } :=
  ⟨hle, st.events.le_refl, fun _ _ h => h, fun _ h => h⟩

theorem lookup_stored (st : Store) (pdu : Pdu) (id : EventId) :
    (st.eventidPdu.insert pdu.eventId ((st.eventidPdu.lookup pdu.eventId).getD pdu)).lookup id =
      if id = pdu.eventId then some ((st.eventidPdu.lookup pdu.eventId).getD pdu) else st.eventidPdu.lookup id :=
  AList.lookup_insert_ite _ _ _ _

theorem pdus_stored (st : Store) (pdu : Pdu) {id : EventId} {old : Pdu} (h : st.eventidPdu.lookup id = some old) :
    (st.eventidPdu.insert pdu.eventId ((st.eventidPdu.lookup pdu.eventId).getD pdu)).lookup id = some old := by
  rw [lookup_stored]
  split
  · rename_i heq
    rw [← heq, h, Option.getD_some]
  · exact h

theorem Valid.store (h : st.Valid c)
    (hrooted : ∀ room ∈ pdu.roomIdOrHash c, createId c room = some pdu.eventId → pdu.authEvents = []) :
    Valid c { st with
      eventidPdu := st.eventidPdu.insert pdu.eventId ((st.eventidPdu.lookup pdu.eventId).getD pdu) } := by
  refine ⟨fun n row hrow => ?_, fun id stored room hstored hroom hid => ?_⟩
  · obtain ⟨id, old, hn, hold, hmap⟩ := h.rows n row hrow
    exact ⟨id, old, hn, pdus_stored st pdu hold, hmap⟩
  · change AList.lookup _ (AList.insert _ _ _) = _ at hstored
    rw [lookup_stored] at hstored
    split at hstored
    · rename_i heq
      rw [Option.some.injEq] at hstored
      cases hold : st.eventidPdu.lookup pdu.eventId with
      | none =>
        rw [hold, Option.getD_none] at hstored
        subst hstored
        exact hrooted room hroom (heq ▸ hid)
      | some old =>
        rw [hold, Option.getD_some] at hstored
        subst hstored
        exact h.rooted id _ room (heq ▸ hold) hroom hid
    · exact h.rooted id stored room hstored hroom hid

theorem Valid.index {events : Enumeration EventId} (h : st.Valid c) (hle : st.events ≤ events)
    (hpdu : st.eventidPdu.lookup id = some pdu) (hid : id ∈ events.items)
    (hauth : ∀ b ∈ pdu.authEvents, b ∈ events.items) :
    Valid c { st with
      events := events
      shortauthevents := st.shortauthevents.insert (events.short id) (pdu.authEvents.map events.short) } := by
  refine ⟨fun n row hrow => ?_, h.rooted⟩
  change AList.lookup n (AList.insert _ _ _) = _ at hrow
  rw [AList.lookup_insert_ite] at hrow
  split at hrow
  · rename_i heq
    rw [Option.some.injEq] at hrow
    subst heq hrow
    refine ⟨id, pdu, Enumeration.get?_short hid, hpdu, ?_⟩
    rw [List.map_map]
    exact List.map_congr_left fun b hb => Enumeration.get?_short (hauth b hb)
  · exact (h.number hle).rows n row hrow

theorem arrive_spec (h : st.Valid c) (indexed : Bool)
    (hrooted : ∀ room ∈ pdu.roomIdOrHash c, createId c room = some pdu.eventId → pdu.authEvents = []) :
    Valid c (st.arrive pdu indexed) ∧ Grows st (st.arrive pdu indexed) := by
  have hstore := h.store hrooted
  unfold arrive
  split
  · have hle : st.events ≤ (st.events.number pdu.eventId).numberAll
        ((st.eventidPdu.lookup pdu.eventId).getD pdu).authEvents :=
      Enumeration.le_trans (Enumeration.le_number _ _) (Enumeration.le_numberAll _ _)
    constructor
    · refine hstore.index hle ?_ ?_ ?_
      · rw [lookup_stored, if_pos rfl]
      · exact Enumeration.mem_numberAll.mpr (.inl (Enumeration.mem_number.mpr (.inr rfl)))
      · exact fun b hb => Enumeration.mem_numberAll.mpr (.inr hb)
    · refine ⟨st.rooms.le_refl, hle, fun _ _ => pdus_stored st pdu, ?_⟩
      rintro id ⟨n, row, hn, hrow⟩
      by_cases heq : n = Enumeration.short ((st.events.number pdu.eventId).numberAll
          ((st.eventidPdu.lookup pdu.eventId).getD pdu).authEvents) pdu.eventId
      · exact ⟨n, _, Enumeration.get?_of_le hle hn, by rw [heq]; exact AList.lookup_insert _⟩
      · exact ⟨n, row, Enumeration.get?_of_le hle hn, by rw [AList.lookup_insert_ne heq]; exact hrow⟩
  · exact ⟨hstore, st.rooms.le_refl, st.events.le_refl, fun _ _ => pdus_stored st pdu, fun _ hin => hin⟩

end Store

/-! ## Chains -/

def Has (events : Enumeration EventId) (chain : Bitmap) (id : EventId) : Prop :=
  ∃ n ∈ chain, events.get? n = some id

theorem Has.mono {events events' : Enumeration EventId} {chain chain' : Bitmap} (h : Has events chain id)
    (hle : events ≤ events') (hsub : ∀ n ∈ chain, n ∈ chain') : Has events' chain' id := by
  obtain ⟨n, hn, hid⟩ := h
  exact ⟨n, hsub n hn, Enumeration.get?_of_le hle hid⟩

/-- A chain has what the event needs and nothing else. -/
structure Covers (c : Codec) (st : Store) (room : RoomId) (a : EventId) (chain : Bitmap) : Prop where
  sound : ∀ n ∈ chain, ∃ id, st.events.get? n = some id ∧
    (TransGen (st.AuthEdge c room) a id ∨ st.DerivedCreate c room id)
  closed : ∀ id b, id = a ∨ Has st.events chain id → st.AuthEdge c room id b → Has st.events chain b

/-- Nothing on the chain was missing. -/
def Whole (c : Codec) (st : Store) (room : RoomId) (a : EventId) (chain : Bitmap) : Prop :=
  ∀ id, id = a ∨ Has st.events chain id → (st.storedAuthEvents c room id).isSome

section
variable {a : EventId} {chain : Bitmap}

theorem Covers.reach (h : Covers c st room a chain) (hreach : ReflTransGen (st.AuthEdge c room) a id) :
    id = a ∨ Has st.events chain id := by
  induction hreach with
  | refl => exact .inl rfl
  | tail _ hedge ih => exact .inr (h.closed _ _ ih hedge)

theorem Covers.has_of_grows (h : Covers c st room a chain) (hg : Store.Grows st st')
    (hid : Has st'.events chain id) :
    Has st.events chain id := by
  obtain ⟨n, hn, hget⟩ := hid
  obtain ⟨id', hget', -⟩ := h.sound n hn
  have heq := Enumeration.get?_of_le hg.events hget'
  rw [hget, Option.some.injEq] at heq
  exact ⟨n, hn, heq ▸ hget'⟩

theorem Covers.grows (h : Covers c st room a chain) (hw : Whole c st room a chain) (hg : Store.Grows st st')
    (hv : st.Valid c) (hv' : st'.Valid c) : Covers c st' room a chain ∧ Whole c st' room a chain := by
  have hold : ∀ id, id = a ∨ Has st'.events chain id → id = a ∨ Has st.events chain id :=
    fun id hid => hid.imp_right (h.has_of_grows hg)
  refine ⟨⟨fun n hn => ?_, fun id b hid hedge => ?_⟩, fun id hid => ?_⟩
  · obtain ⟨id, hget, hid⟩ := h.sound n hn
    refine ⟨id, Enumeration.get?_of_le hg.events hget, hid.imp (fun hreach => ?_) hg.derivedCreate⟩
    exact TransGen.mono (fun _ _ hedge => hg.authEdge hv hv' hedge) _ _ hreach
  · obtain ⟨ids, hids⟩ := Option.isSome_iff_exists.mp (hw id (hold id hid))
    obtain ⟨ids', hids', hb⟩ := hedge
    rw [Option.mem_def, hg.storedAuthEvents hv hv' hids, Option.some.injEq] at hids'
    subst hids'
    exact (h.closed id b (hold id hid) ⟨ids, hids, hb⟩).mono hg.events fun _ hn => hn
  · obtain ⟨ids, hids⟩ := Option.isSome_iff_exists.mp (hw id (hold id hid))
    exact Option.isSome_iff_exists.mpr ⟨ids, hg.storedAuthEvents hv hv' hids⟩

end

/-! ## The caches -/

structure Data.Mirrors (d : Data) (chains : AList fun _ : Nat × Nat => Bitmap) : Prop where
  database : d.shorteventidAuthchain = chains
  memory : ∀ key chain, d.authChainCache.lookup key = some chain → chains.lookup key = some chain

theorem Data.Mirrors.get {d : Data} {chains : AList fun _ : Nat × Nat => Bitmap} (h : d.Mirrors chains)
    (key : Nat × Nat) : (d.getCachedEventidAuthchain key).1 = chains.lookup key ∧
      (d.getCachedEventidAuthchain key).2.Mirrors chains := by
  unfold getCachedEventidAuthchain
  split
  · rename_i chain hchain
    exact ⟨(h.memory key chain hchain).symm, h⟩
  · split
    · rename_i chain hchain
      rw [h.database] at hchain
      refine ⟨hchain.symm, h.database, fun key' chain' hmem => ?_⟩
      change AList.lookup _ (AList.insert _ _ _) = _ at hmem
      rw [AList.lookup_insert_ite] at hmem
      split at hmem
      · rename_i heq
        rw [heq, hchain, hmem]
      · exact h.memory key' chain' hmem
    · rename_i hchain
      rw [h.database] at hchain
      exact ⟨hchain.symm, h⟩

/-! ## A level of the walk -/

structure Noted {A : Type} (chains : AList fun _ : Nat × Nat => Bitmap) (shortroomid : Nat) (short : A → Nat)
    (l : List A) (p p' : Pass A) : Prop where
  mirrors : p'.db.Mirrors chains
  kept : ∀ n ∈ p.found, n ∈ p'.found
  noted : ∀ x ∈ l, short x ∈ p'.found
  old : ∀ x ∈ p.next, x ∈ p'.next
  new : ∀ x ∈ p'.next, x ∈ p.next ∨ x ∈ l ∧ short x ∈ p'.found ∧ short x ∉ p.found
  origin : ∀ n ∈ p'.found, n ∈ p.found ∨ (∃ x ∈ l, x ∈ p'.next ∧ n = short x) ∨
    ∃ x ∈ l, ∃ chain, chains.lookup (shortroomid, short x) = some chain ∧ (∀ m ∈ chain, m ∈ p'.found) ∧
      (n = short x ∨ n ∈ chain)

section
variable {A : Type} {chains : AList fun _ : Nat × Nat => Bitmap} {shortroomid : Nat} {short : A → Nat}
  {l l' : List A} {p p' p'' : Pass A}

theorem Noted.nil (h : p.db.Mirrors chains) : Noted chains shortroomid short [] p p :=
  ⟨h, fun _ hn => hn, nofun, fun _ hx => hx, fun _ hx => .inl hx, fun _ hn => .inl hn⟩

theorem Noted.append (h : Noted chains shortroomid short l p p') (h' : Noted chains shortroomid short l' p' p'') :
    Noted chains shortroomid short (l ++ l') p p'' := by
  refine ⟨h'.mirrors, fun n hn => h'.kept n (h.kept n hn), fun x hx => ?_, fun x hx => h'.old x (h.old x hx),
    fun x hx => ?_, fun n hn => ?_⟩
  · rcases List.mem_append.mp hx with hx | hx
    · exact h'.kept _ (h.noted x hx)
    · exact h'.noted x hx
  · rcases h'.new x hx with hx | ⟨hx, hin, hnot⟩
    · rcases h.new x hx with hx | ⟨hx, hin, hnot⟩
      · exact .inl hx
      · exact .inr ⟨List.mem_append_left _ hx, h'.kept _ hin, hnot⟩
    · exact .inr ⟨List.mem_append_right _ hx, hin, fun hold => hnot (h.kept _ hold)⟩
  · rcases h'.origin n hn with hn | ⟨x, hx, hnext, hnx⟩ | ⟨x, hx, chain, hchain, hsub, hnx⟩
    · rcases h.origin n hn with hn | ⟨x, hx, hnext, hnx⟩ | ⟨x, hx, chain, hchain, hsub, hnx⟩
      · exact .inl hn
      · exact .inr (.inl ⟨x, List.mem_append_left _ hx, h'.old x hnext, hnx⟩)
      · exact .inr (.inr ⟨x, List.mem_append_left _ hx, chain, hchain, fun m hm => h'.kept m (hsub m hm), hnx⟩)
    · exact .inr (.inl ⟨x, List.mem_append_right _ hx, hnext, hnx⟩)
    · exact .inr (.inr ⟨x, List.mem_append_right _ hx, chain, hchain, hsub, hnx⟩)

theorem noted_note (h : p.db.Mirrors chains) (x : A) :
    Noted chains shortroomid short [x] p (p.note shortroomid short x) := by
  obtain ⟨hfst, hmirrors⟩ := h.get (shortroomid, short x)
  unfold Pass.note
  split
  · rename_i hin
    exact ⟨h, fun _ hn => hn, fun y hy => List.mem_singleton.mp hy ▸ hin, fun _ hy => hy, fun _ hy => .inl hy,
      fun _ hn => .inl hn⟩
  · rename_i hnot
    split
    · rename_i cached db heq
      rw [heq] at hfst hmirrors
      have hmem : ∀ n, n ∈ (p.found.insert (short x)).union cached ↔ (n = short x ∨ n ∈ p.found) ∨ n ∈ cached :=
        fun n => EventWrites.Bitmap.mem_union.trans (or_congr_left EventWrites.Bitmap.mem_insert)
      refine ⟨hmirrors, fun n hn => (hmem n).mpr (.inl (.inr hn)), fun y hy => ?_, fun _ hy => hy,
        fun _ hy => .inl hy, fun n hn => ?_⟩
      · rw [List.mem_singleton.mp hy]
        exact (hmem _).mpr (.inl (.inl rfl))
      · rcases (hmem n).mp hn with (hn | hn) | hn
        · exact .inr (.inr ⟨x, List.mem_singleton_self x, cached, hfst.symm, fun m hm => (hmem m).mpr
            (.inr hm), .inl hn⟩)
        · exact .inl hn
        · exact .inr (.inr ⟨x, List.mem_singleton_self x, cached, hfst.symm, fun m hm => (hmem m).mpr
            (.inr hm), .inr hn⟩)
    · rename_i db heq
      rw [heq] at hmirrors
      refine ⟨hmirrors, fun n hn => EventWrites.Bitmap.mem_insert.mpr (.inr hn), fun y hy => ?_,
        fun y hy => List.mem_append_left _ hy, fun y hy => ?_, fun n hn => ?_⟩
      · rw [List.mem_singleton.mp hy]
        exact EventWrites.Bitmap.mem_insert.mpr (.inl rfl)
      · rcases List.mem_append.mp hy with hy | hy
        · exact .inl hy
        · rw [List.mem_singleton.mp hy]
          exact .inr ⟨List.mem_singleton_self x, EventWrites.Bitmap.mem_insert.mpr (.inl rfl), hnot⟩
      · rcases EventWrites.Bitmap.mem_insert.mp hn with hn | hn
        · exact .inr (.inl ⟨x, List.mem_singleton_self x, List.mem_append_right _ (List.mem_singleton_self x), hn⟩)
        · exact .inl hn

theorem noted_foldl (h : p.db.Mirrors chains) (l : List A) :
    Noted chains shortroomid short l p (l.foldl (Pass.note shortroomid short) p) := by
  induction l generalizing p with
  | nil => exact .nil h
  | cons x l ih =>
    have hx : Noted chains shortroomid short [x] p (p.note shortroomid short x) := noted_note h x
    exact hx.append (ih hx.mirrors)

end

/-! ## The walk -/

def CachedFor (c : Codec) (st : Store) (room : RoomId) (shortroomid : Nat)
    (chains : AList fun _ : Nat × Nat => Bitmap) : Prop :=
  ∀ n chain, chains.lookup (shortroomid, n) = some chain →
    ∃ id, st.events.get? n = some id ∧ Covers c st room id chain ∧ Whole c st room id chain

/-- The event's auth events are on the chain, and it was not missing if the chain counts as whole. -/
structure Walked (c : Codec) (st : Store) (room : RoomId) (events : Enumeration EventId) (found : Bitmap)
    (isComplete : Bool) (id : EventId) : Prop where
  closed : ∀ b, st.AuthEdge c room id b → Has events found b
  whole : isComplete = true → (st.storedAuthEvents c room id).isSome

/-- The invariant of a walk from `a`, with the events it has still to go on from. -/
structure Walking (c : Codec) (st : Store) (room : RoomId) (a : EventId)
    (chains : AList fun _ : Nat × Nat => Bitmap)
    (pending : List EventId) (w : Walk) : Prop where
  events : st.events ≤ w.events
  numbered : ∀ id ∈ w.events.items, id ∈ st.events.items ∨ TransGen (st.AuthEdge c room) a id
  mirrors : w.db.Mirrors chains
  wrongRoom : w.wrongRoom = none
  sound : ∀ n ∈ w.found, ∃ id, w.events.get? n = some id ∧
    (TransGen (st.AuthEdge c room) a id ∨ st.DerivedCreate c room id)
  todo : ∀ p ∈ w.todo, w.events.get? p.1 = some p.2 ∧ ReflTransGen (st.AuthEdge c room) a p.2
  walked : ∀ id, id = a ∨ Has w.events w.found id → id ∈ pending ∨ Walked c st room w.events w.found w.isComplete id

section
variable {a : EventId} {chains : AList fun _ : Nat × Nat => Bitmap} {shortroomid : Nat}
  {events events' : Enumeration EventId}
  {found found' : Bitmap} {isComplete isComplete' : Bool}

theorem Walked.mono (h : Walked c st room events found isComplete id) (hle : events ≤ events')
    (hsub : ∀ n ∈ found, n ∈ found') (hcomplete : isComplete' = true → isComplete = true) :
    Walked c st room events' found' isComplete' id :=
  ⟨fun b hedge => (h.closed b hedge).mono hle hsub, fun hc => h.whole (hcomplete hc)⟩

section
variable {A : Type} {short : A → Nat} {l : List A} {p p' : Pass A}

theorem Noted.sound (h : Noted chains shortroomid short l p p') (hcached : CachedFor c st room shortroomid chains)
    (hle : st.events ≤ events)
    (hl : ∀ x ∈ l, ∃ id, events.get? (short x) = some id ∧ TransGen (st.AuthEdge c room) a id)
    (hp : ∀ n ∈ p.found, ∃ id, events.get? n = some id ∧
      (TransGen (st.AuthEdge c room) a id ∨ st.DerivedCreate c room id)) :
    ∀ n ∈ p'.found, ∃ id, events.get? n = some id ∧
      (TransGen (st.AuthEdge c room) a id ∨ st.DerivedCreate c room id) := by
  intro n hn
  rcases h.origin n hn with hn | ⟨x, hx, -, rfl⟩ | ⟨x, hx, chain, hchain, -, rfl | hn⟩
  · exact hp n hn
  · obtain ⟨id, hid, hreach⟩ := hl x hx
    exact ⟨id, hid, .inl hreach⟩
  · obtain ⟨id, hid, hreach⟩ := hl x hx
    exact ⟨id, hid, .inl hreach⟩
  · obtain ⟨id, hid, hreach⟩ := hl x hx
    obtain ⟨id', hid', hcovers, -⟩ := hcached _ chain hchain
    have heq := Enumeration.get?_of_le hle hid'
    rw [hid, Option.some.injEq] at heq
    subst heq
    obtain ⟨b, hb, hfrom⟩ := hcovers.sound n hn
    exact ⟨b, Enumeration.get?_of_le hle hb, hfrom.imp_left fun h' => TransGen.trans hreach h'⟩

/-- An event that a pass finds was found before, is to be walked from, or came with a whole
chain. -/
theorem Noted.walked (h : Noted chains shortroomid short l p p') (hcached : CachedFor c st room shortroomid chains)
    (hle : st.events ≤ events) (hid : Has events p'.found id) :
    Has events p.found id ∨ (∃ x ∈ p'.next, events.get? (short x) = some id) ∨
      Walked c st room events p'.found isComplete id := by
  obtain ⟨n, hn, hget⟩ := hid
  rcases h.origin n hn with hn | ⟨x, -, hnext, rfl⟩ | ⟨x, -, chain, hchain, hsub, hon⟩
  · exact .inl ⟨n, hn, hget⟩
  · exact .inr (.inl ⟨x, hnext, hget⟩)
  · obtain ⟨id', hid', hcovers, hwhole⟩ := hcached _ chain hchain
    have hmem : id = id' ∨ Has st.events chain id := by
      rcases hon with rfl | hn
      · have heq := Enumeration.get?_of_le hle hid'
        rw [hget, Option.some.injEq] at heq
        exact .inl heq
      · exact .inr (hcovers.has_of_grows (Store.grows_number hle) ⟨n, hn, hget⟩)
    exact .inr (.inr ⟨fun b hedge => (hcovers.closed id b hmem hedge).mono hle hsub, fun _ => hwhole id hmem⟩)

end

/-- The walk has gone on: what is still to be walked from is cited and was not found before. -/
structure Advanced (st : Store) (w w' : Walk) : Prop where
  events : w.events ≤ w'.events
  kept : ∀ n ∈ w.found, n ∈ w'.found
  fresh : ∀ p ∈ w'.todo, p.1 ∈ w'.found ∧ p.1 ∉ w.found ∧ p.2 ∈ st.cited

variable {w : Walk}

theorem mem_rows {m : Nat} : m ∈ w.rows st ↔ ∃ p ∈ w.todo, ∃ row, st.shortauthevents.lookup p.1 =
    some row ∧ m ∈ row := by
  unfold Walk.rows
  rw [List.mem_flatMap]
  refine exists_congr fun p => and_congr_right fun _ => ?_
  cases st.shortauthevents.lookup p.1 <;> simp

theorem mem_missingEvents : id ∈ w.missingEvents st ↔ ∃ n, (n, id) ∈ w.todo ∧
    st.shortauthevents.lookup n = none := by
  simp [Walk.missingEvents, Option.isNone_iff_eq_none]

theorem mem_resolved {next : List Nat} {p : Nat × EventId} :
    (p ∈ next.filterMap fun short => (events.get? short).map fun id => (short, id)) ↔
      p.1 ∈ next ∧ events.get? p.1 = some p.2 := by
  obtain ⟨n, id⟩ := p
  simp [List.mem_filterMap, Option.map_eq_some_iff]

/-- A pass keeps the invariant, when the pending events that are not pending any more have
been walked from. -/
theorem Walking.pass {A : Type} {short : A → Nat} {l : List A} {p p' : Pass A} {pending pending' : List EventId}
    {todo : List (Nat × EventId)} {wrongRoom : Option EventId} (h : Walking c st room a chains pending w)
    (hcached : CachedFor c st room shortroomid chains) (hle : w.events ≤ events)
    (hnumbered : ∀ id ∈ events.items, id ∈ w.events.items ∨ TransGen (st.AuthEdge c room) a id)
    (hroom : wrongRoom = none) (hnoted : Noted chains shortroomid short l p p') (hfound : p.found = w.found)
    (hl : ∀ x ∈ l, ∃ id, events.get? (short x) = some id ∧ TransGen (st.AuthEdge c room) a id)
    (htodo : ∀ q ∈ todo, events.get? q.1 = some q.2 ∧ ReflTransGen (st.AuthEdge c room) a q.2)
    (hnext : ∀ x ∈ p'.next, ∀ id, events.get? (short x) = some id → id ∈ pending')
    (hcomplete : isComplete = true → w.isComplete = true)
    (hpending : ∀ id ∈ pending, id ∈ pending' ∨ Walked c st room events p'.found isComplete id) :
    Walking c st room a chains pending' ⟨todo, p'.found, isComplete, events, p'.db, wrongRoom⟩ := by
  have hevents := Enumeration.le_trans h.events hle
  have hold : ∀ id, id = a ∨ Has w.events w.found id → id ∈ pending' ∨ Walked c st room events
      p'.found isComplete id := by
    intro id hid
    rcases h.walked id hid with hid | hwalked
    · exact hpending id hid
    · exact .inr (hwalked.mono hle (hfound ▸ hnoted.kept) hcomplete)
  refine ⟨hevents, fun id hid => ?_, hnoted.mirrors, hroom, ?_, htodo, fun id hid => ?_⟩
  · rcases hnumbered id hid with hid | hreach
    · exact h.numbered id hid
    · exact .inr hreach
  · refine hnoted.sound hcached hevents hl fun n hn => ?_
    obtain ⟨id, hget, hid⟩ := h.sound n (hfound ▸ hn)
    exact ⟨id, Enumeration.get?_of_le hle hget, hid⟩
  · rcases hid with hid | hid
    · exact hold id (.inl hid)
    · rcases hnoted.walked hcached hevents hid with ⟨n, hn, hget⟩ | ⟨x, hx, hget⟩ | hwalked
      · obtain ⟨id', hget', -⟩ := h.sound n (hfound ▸ hn)
        have heq := Enumeration.get?_of_le hle hget'
        rw [hget, Option.some.injEq] at heq
        exact hold id (.inr ⟨n, hfound ▸ hn, heq ▸ hget'⟩)
      · exact .inl (hnext x hx id hget)
      · exact .inr hwalked

theorem Walking.reach_rows {pending : List EventId} (h : Walking c st room a chains pending w)
    (hv : st.Valid c) {m : Nat}
    (hm : m ∈ w.rows st) : ∃ b, w.events.get? m = some b ∧ TransGen (st.AuthEdge c room) a b ∧ b ∈ st.cited := by
  obtain ⟨⟨n, id⟩, hp, row, hrow, hm⟩ := mem_rows.mp hm
  obtain ⟨hn, hreach⟩ := h.todo _ hp
  obtain ⟨b, hb⟩ := hv.row_numbered hrow hm
  have hb := Enumeration.get?_of_le h.events hb
  have hids := Store.storedAuthEvents_at room hv h.events hn
  rw [hrow] at hids
  have hedge : st.AuthEdge c room id b := ⟨_, hids, List.mem_filterMap.mpr ⟨m, hm, hb⟩⟩
  exact ⟨b, hb, .tail' hreach hedge, hedge.mem_cited hv⟩

theorem Walking.followRows (h : Walking c st room a chains (w.todo.map Prod.snd) w) (hv : st.Valid c)
    (hcached : CachedFor c st room shortroomid chains) :
    Walking c st room a chains (w.missingEvents st ++ (w.followRows st shortroomid).todo.map Prod.snd)
      (w.followRows st shortroomid) ∧ Advanced st w (w.followRows st shortroomid) := by
  have hnoted : Noted chains shortroomid id (w.rows st) ⟨w.found, [], w.db⟩ _ := noted_foldl h.mirrors _
  have hresolved : ∀ p ∈ (w.followRows st shortroomid).todo, w.events.get? p.1 = some p.2 ∧
      TransGen (st.AuthEdge c room) a p.2 ∧ p.1 ∈ (w.followRows st shortroomid).found ∧ p.1 ∉ w.found ∧
        p.2 ∈ st.cited := by
    intro p hp
    obtain ⟨hnext, hget⟩ := mem_resolved.mp hp
    obtain ⟨hm, hin, hnot⟩ := (hnoted.new _ hnext).resolve_left List.not_mem_nil
    obtain ⟨b, hb, hreach, hcited⟩ := h.reach_rows hv hm
    rw [hget, Option.some.injEq] at hb
    exact ⟨hget, hb ▸ hreach, hin, hnot, hb ▸ hcited⟩
  constructor
  · refine h.pass hcached w.events.le_refl (fun _ hid => .inl hid) h.wrongRoom hnoted rfl
      (fun m hm => ?_) (fun p hp => ?_)
      (fun m hm id hget => ?_) (fun hc => (Bool.and_eq_true_iff.mp hc).1) (fun id hid => ?_)
    · obtain ⟨b, hb, hreach, -⟩ := h.reach_rows hv hm
      exact ⟨b, hb, hreach⟩
    · obtain ⟨hget, hreach, -⟩ := hresolved p hp
      exact ⟨hget, hreach.to_reflTransGen⟩
    · exact List.mem_append_right _ (List.mem_map.mpr ⟨(m, id), mem_resolved.mpr ⟨hm, hget⟩, rfl⟩)
    · -- an event with a row has been walked from
      obtain ⟨⟨n, id⟩, hp, rfl⟩ := List.mem_map.mp hid
      have hids := Store.storedAuthEvents_at room hv h.events (h.todo _ hp).1
      cases hrow : st.shortauthevents.lookup n with
      | none => exact .inl (List.mem_append_left _ (mem_missingEvents.mpr ⟨n, hp, hrow⟩))
      | some row =>
        rw [hrow] at hids
        refine .inr ⟨fun b hedge => ?_, fun _ => by rw [hids]; rfl⟩
        obtain ⟨ids, hids', hb⟩ := hedge
        rw [Option.mem_def, hids, Option.some.injEq] at hids'
        obtain ⟨m, hm, hb⟩ := List.mem_filterMap.mp (hids' ▸ hb)
        exact ⟨m, hnoted.noted m (mem_rows.mpr ⟨_, hp, row, hrow, hm⟩), hb⟩
  · refine ⟨w.events.le_refl, hnoted.kept, fun p hp => ?_⟩
    obtain ⟨-, -, hfresh⟩ := hresolved p hp
    exact hfresh

/-! ### Events without rows -/

theorem gather_spec (c : Codec) (st : Store) (room : RoomId) (missing : List EventId) (l : Legacy)
    (h : l.wrongRoom = none) :
    (missing.foldl (Legacy.gather c st room) l).wrongRoom = none ∧
      (∀ b, b ∈ (missing.foldl (Legacy.gather c st room) l).newAuthEvents ↔
        b ∈ l.newAuthEvents ∨ ∃ id ∈ missing, ∃ pdu, st.getPduInRoom c room id = some pdu ∧ b ∈ pdu.authEvents) ∧
      ((missing.foldl (Legacy.gather c st room) l).isComplete = true →
        l.isComplete = true ∧ ∀ id ∈ missing, (st.getPduInRoom c room id).isSome) := by
  induction missing generalizing l with
  | nil => simp [h]
  | cons id missing ih =>
    rw [List.foldl_cons]
    cases hpdu : st.getPduInRoom c room id with
    | none =>
      have hgather : l.gather c st room id = { l with isComplete := false } := by
        simp [Legacy.gather, h, hpdu]
      rw [hgather]
      obtain ⟨hroom, hnew, hcomplete⟩ := ih { l with isComplete := false } h
      refine ⟨hroom, fun b => (hnew b).trans (or_congr_right ?_), fun hc => absurd
        (hcomplete hc).1 Bool.false_ne_true⟩
      simp [hpdu]
    | some pdu =>
      have hclaimed : (pdu.roomId.any fun claimed => claimed ≠ room) = false := by
        have hroom := (Store.getPduInRoom_eq_some_iff.mp hpdu).2
        unfold Pdu.roomIdOrHash at hroom
        cases hclaimed : pdu.roomId with
        | none => rfl
        | some claimed =>
          rw [hclaimed, Option.some.injEq] at hroom
          simp [hroom]
      have hgather : l.gather c st room id = { l with newAuthEvents := l.newAuthEvents ++ pdu.authEvents } := by
        simp only [Legacy.gather, h, hpdu, hclaimed]
        rfl
      rw [hgather]
      obtain ⟨hroom, hnew, hcomplete⟩ := ih { l with newAuthEvents := l.newAuthEvents ++ pdu.authEvents } h
      refine ⟨hroom, fun b => (hnew b).trans ?_, fun hc => ?_⟩
      · simp [hpdu, or_assoc]
      · obtain ⟨hl, hall⟩ := hcomplete hc
        exact ⟨hl, List.forall_mem_cons.mpr ⟨by rw [hpdu]; rfl, hall⟩⟩

theorem Walking.followLegacy {order : SetOrder} {missing : List EventId} {w₀ : Walk}
    (h : Walking c st room a chains (missing ++ w.todo.map Prod.snd) w) (hv : st.Valid c)
    (hcached : CachedFor c st room shortroomid chains) (hadvanced : Advanced st w₀ w)
    (hmissing : ∀ id ∈ missing, st.storedAuthEvents c room id = (st.getPduInRoom c room id).map (·.authEvents) ∧
      ReflTransGen (st.AuthEdge c room) a id) :
    Walking c st room a chains ((w.followLegacy c st order room shortroomid missing).todo.map Prod.snd)
      (w.followLegacy c st order room shortroomid missing) ∧
      Advanced st w₀ (w.followLegacy c st order room shortroomid missing) := by
  obtain ⟨hroom, hnew, hcomplete⟩ := gather_spec c st room missing ⟨[], w.isComplete, none⟩ rfl
  unfold Walk.followLegacy
  simp only [hroom, Option.isSome_none, Bool.false_eq_true, if_false]
  generalize missing.foldl (Legacy.gather c st room) ⟨[], w.isComplete, none⟩ = legacy at hroom hnew hcomplete ⊢
  -- what is gathered is cited by the events without rows
  have hedges : ∀ b ∈ order.iter legacy.newAuthEvents, TransGen (st.AuthEdge c room) a b ∧ b ∈ st.cited := by
    intro b hb
    obtain ⟨id, hid, pdu, hpdu, hb⟩ := ((hnew b).mp (order.mem_iter.mp hb)).resolve_left List.not_mem_nil
    obtain ⟨hids, hreach⟩ := hmissing id hid
    rw [hpdu] at hids
    have hedge : st.AuthEdge c room id b := ⟨_, hids, hb⟩
    exact ⟨.tail' hreach hedge, hedge.mem_cited hv⟩
  have hle := w.events.le_numberAll (order.iter legacy.newAuthEvents)
  have hnumbered : ∀ b, b ∈ (w.events.numberAll (order.iter legacy.newAuthEvents)).items ↔
      b ∈ w.events.items ∨ b ∈ order.iter legacy.newAuthEvents := fun b => Enumeration.mem_numberAll
  generalize w.events.numberAll (order.iter legacy.newAuthEvents) = events at hle hnumbered ⊢
  have hpairs : ∀ p ∈ (order.iter legacy.newAuthEvents).map fun id => (events.short id, id),
      events.get? p.1 = some p.2 ∧ TransGen (st.AuthEdge c room) a p.2 ∧ p.2 ∈ st.cited := by
    intro p hp
    obtain ⟨b, hb, rfl⟩ := List.mem_map.mp hp
    exact ⟨Enumeration.get?_short ((hnumbered b).mpr (.inr hb)), hedges b hb⟩
  have hnoted : Noted chains shortroomid Prod.fst
      ((order.iter legacy.newAuthEvents).map fun id => (events.short id, id)) ⟨w.found, w.todo, w.db⟩ _ :=
    noted_foldl h.mirrors _
  generalize ((order.iter legacy.newAuthEvents).map fun id => (events.short id, id)).foldl
    (Pass.note shortroomid Prod.fst) ⟨w.found, w.todo, w.db⟩ = pass at hnoted ⊢
  have htodo : ∀ p ∈ pass.next, events.get? p.1 = some p.2 ∧ ReflTransGen (st.AuthEdge c room) a p.2 := by
    intro p hp
    rcases hnoted.new p hp with hp | ⟨hp, -⟩
    · obtain ⟨hget, hreach⟩ := h.todo p hp
      exact ⟨Enumeration.get?_of_le hle hget, hreach⟩
    · obtain ⟨hget, hreach, -⟩ := hpairs p hp
      exact ⟨hget, hreach.to_reflTransGen⟩
  constructor
  · refine h.pass hcached hle (fun b hb => ((hnumbered b).mp hb).imp_right fun hb => (hedges b hb).1) rfl hnoted rfl
      (fun p hp => ⟨p.2, (hpairs p hp).1, (hpairs p hp).2.1⟩) htodo (fun p hp id hget => ?_)
      (fun hc => (hcomplete hc).1) (fun id hid => ?_)
    · have heq := (htodo p hp).1
      rw [hget, Option.some.injEq] at heq
      exact List.mem_map.mpr ⟨p, hp, heq.symm⟩
    · rcases List.mem_append.mp hid with hid | hid
      · -- an event without a row has been walked from, or is missing
        obtain ⟨hids, -⟩ := hmissing id hid
        refine .inr ⟨fun b hedge => ?_, fun hc => ?_⟩
        · obtain ⟨ids, hids', hb⟩ := hedge
          rw [Option.mem_def, hids, Option.map_eq_some_iff] at hids'
          obtain ⟨pdu, hpdu, rfl⟩ := hids'
          have hmem := order.mem_iter.mpr ((hnew b).mpr (.inr ⟨id, hid, pdu, hpdu, hb⟩))
          exact ⟨_, hnoted.noted (events.short b, b) (List.mem_map_of_mem hmem),
            Enumeration.get?_short ((hnumbered b).mpr (.inr hmem))⟩
        · rw [hids, Option.isSome_map]
          exact (hcomplete hc).2 id hid
      · obtain ⟨p, hp, rfl⟩ := List.mem_map.mp hid
        exact .inl (List.mem_map_of_mem (hnoted.old p hp))
  · refine ⟨Enumeration.le_trans hadvanced.events hle, fun n hn => hnoted.kept n (hadvanced.kept n hn),
      fun p hp => ?_⟩
    rcases hnoted.new p hp with hp | ⟨hp, hin, hnot⟩
    · obtain ⟨hin, hnot, hcited⟩ := hadvanced.fresh p hp
      exact ⟨hnoted.kept _ hin, hnot, hcited⟩
    · exact ⟨hin, fun hn => hnot (hadvanced.kept _ hn), (hpairs p hp).2.2⟩

/-! ### Levels -/

theorem Walking.level (order : SetOrder) (h : Walking c st room a chains (w.todo.map Prod.snd) w) (hv : st.Valid c)
    (hcached : CachedFor c st room shortroomid chains) :
    Walking c st room a chains ((w.level c st order room shortroomid).todo.map Prod.snd)
      (w.level c st order room shortroomid) ∧ Advanced st w (w.level c st order room shortroomid) := by
  obtain ⟨hrows, hadvanced⟩ := h.followRows hv hcached
  refine hrows.followLegacy hv hcached hadvanced fun id hid => ?_
  obtain ⟨n, hn, hrow⟩ := mem_missingEvents.mp hid
  obtain ⟨hget, hreach⟩ := h.todo _ hn
  have hids := Store.storedAuthEvents_at room hv h.events hget
  rw [hrow] at hids
  exact ⟨hids, hreach⟩

theorem Walking.run {order : SetOrder} {fuel : Nat} {w' : Walk}
    (h : Walking c st room a chains (w.todo.map Prod.snd) w) (hv : st.Valid c)
    (hcached : CachedFor c st room shortroomid chains) (hrun : w.run c st order room shortroomid fuel = some w') :
    Walking c st room a chains [] w' := by
  have hend : ∀ {w}, Walking c st room a chains (w.todo.map Prod.snd) w →
      (w.todo.isEmpty || w.wrongRoom.isSome) = true → Walking c st room a chains [] w := by
    intro w h hdone
    rw [h.wrongRoom, Option.isSome_none, Bool.or_false, List.isEmpty_iff] at hdone
    rw [hdone] at h
    exact h
  induction fuel generalizing w with
  | zero =>
    unfold Walk.run at hrun
    split at hrun
    · rename_i hdone
      cases hrun
      exact hend h hdone
    · cases hrun
  | succ fuel ih =>
    unfold Walk.run at hrun
    split at hrun
    · rename_i hdone
      cases hrun
      exact hend h hdone
    · exact ih (h.level order hv hcached).1 hrun

open Classical in
noncomputable def unfound (st : Store) (w : Walk) : Nat :=
  (st.cited.toFinset.filter fun id => ¬ Has w.events w.found id).card

theorem Advanced.unfound_lt {w' : Walk} (hadvanced : Advanced st w w') {p : Nat × EventId} (hp : p ∈ w'.todo)
    (hget : w'.events.get? p.1 = some p.2) : unfound st w' < unfound st w := by
  obtain ⟨hin, hnot, hcited⟩ := hadvanced.fresh p hp
  unfold unfound
  refine Finset.card_lt_card (Finset.ssubset_iff_of_subset ?_ |>.mpr ⟨p.2, ?_, ?_⟩)
  · intro id hid
    simp only [Finset.mem_filter] at hid ⊢
    exact ⟨hid.1, fun hold => hid.2 (hold.mono hadvanced.events hadvanced.kept)⟩
  · simp only [Finset.mem_filter, List.mem_toFinset]
    refine ⟨hcited, ?_⟩
    rintro ⟨n, hn, hold⟩
    exact hnot (Enumeration.get?_inj (Enumeration.get?_of_le hadvanced.events hold) hget ▸ hn)
  · simp only [Finset.mem_filter, not_and, not_not]
    exact fun _ => ⟨p.1, hin, hget⟩

theorem unfound_le (st : Store) (w : Walk) : unfound st w ≤ st.cited.length := by
  classical
  unfold unfound
  exact Nat.le_trans (Finset.card_le_card (Finset.filter_subset _ _)) (List.toFinset_card_le st.cited)

theorem Walking.ends {fuel : Nat} (order : SetOrder) (h : Walking c st room a chains (w.todo.map Prod.snd) w)
    (hv : st.Valid c) (hcached : CachedFor c st room shortroomid chains)
    (hfuel : w.todo = [] ∨ unfound st w < fuel) :
    ∃ w', w.run c st order room shortroomid fuel = some w' := by
  induction fuel generalizing w with
  | zero =>
    unfold Walk.run
    rcases hfuel with htodo | hlt
    · exact ⟨w, by rw [htodo]; rfl⟩
    · exact absurd hlt (Nat.not_lt_zero _)
  | succ fuel ih =>
    unfold Walk.run
    split
    · exact ⟨w, rfl⟩
    · rename_i hgo
      obtain ⟨hlevel, hadvanced⟩ := h.level order hv hcached
      refine ih hlevel ?_
      cases htodo : (w.level c st order room shortroomid).todo with
      | nil => exact .inl rfl
      | cons p rest =>
        have hp : p ∈ (w.level c st order room shortroomid).todo := htodo ▸ List.mem_cons_self
        have hlt := hadvanced.unfound_lt hp (hlevel.todo p hp).1
        rcases hfuel with hnil | hfuel
        · rw [hnil] at hgo
          exact absurd rfl hgo
        · exact .inr (by omega)

end

end

end Congruent.AuthChain
