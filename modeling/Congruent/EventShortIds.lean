import Congruent.EventWrites
import Mathlib.Data.List.Nodup

/-!
# Short ids of a room's events

Short ids are given out from a counter in the store, and the commit expects the version
that was read before the counter. That is enough for one event; a second event of the
room in the same transaction reads the same counter again.
-/

namespace Congruent.EventWrites

open Store

/-! ## What is given out -/

/-- Numbers after the counter, one for each id that had none, in order. -/
structure Fresh (start : Nat) (found : List (Bytes × Option Nat)) (a : Alloc) : Prop where
  next_eq : a.next = start + a.staged.length
  le : start ≤ u32Max → a.next ≤ u32Max
  number : ∀ i p, a.staged[i]? = some p → p.2 = start + i + 1
  nodup : (a.staged.map Prod.fst).Nodup
  missing : ∀ id, id ∈ a.staged.map Prod.fst ↔ (id, none) ∈ found
  shorts : List.Forall₂ (fun p n => p.2 = some n ∨ p.2 = none ∧ (p.1, n) ∈ a.staged) found a.shorts

namespace Fresh

variable {start : Nat} {found : List (Bytes × Option Nat)} {a : Alloc} {id id' : Bytes} {n n' : Nat}

theorem refl (start : Nat) : Fresh start [] ⟨start, [], []⟩ where
  next_eq := rfl
  le h := h
  number i p h := by simp at h
  nodup := List.nodup_nil
  missing id := by simp
  shorts := .nil

theorem known (h : Fresh start found a) {o : Option Nat} (hn : o = some n ∨ o = none ∧ (id, n) ∈ a.staged) :
    Fresh start (found ++ [(id, o)]) { a with shorts := a.shorts ++ [n] } where
  next_eq := h.next_eq
  le := h.le
  number := h.number
  nodup := h.nodup
  missing id' := by
    rw [h.missing id', List.mem_append, List.mem_singleton]
    refine ⟨.inl, fun hmem => ?_⟩
    rcases hmem with hmem | heq
    · exact hmem
    · obtain ⟨rfl, rfl⟩ := Prod.mk.inj heq
      rcases hn with hn | ⟨-, hn⟩
      · cases hn
      · exact (h.missing id').mp (List.mem_map_of_mem hn)
  shorts := List.rel_append h.shorts (.cons hn .nil)

theorem new (h : Fresh start found a) (hid : a.staged.lookup id = none) (hle : a.next < u32Max) :
    Fresh start (found ++ [(id, none)]) ⟨a.next + 1, a.staged ++ [(id, a.next + 1)], a.shorts ++ [a.next + 1]⟩ where
  next_eq := by
    rw [h.next_eq, List.length_append]
    rfl
  le _ := hle
  number i p hp := by
    rcases Nat.lt_trichotomy i a.staged.length with hi | rfl | hi
    · rw [List.getElem?_append_left hi] at hp
      exact h.number i p hp
    · rw [List.getElem?_append_right (Nat.le_refl _), Nat.sub_self, List.getElem?_cons_zero,
        Option.some.injEq] at hp
      rw [← hp, h.next_eq]
    · rw [List.getElem?_eq_none (by simp; omega)] at hp
      cases hp
  nodup := by
    rw [List.map_append, List.nodup_append]
    refine ⟨h.nodup, by simp, fun x hx y hy => ?_⟩
    obtain ⟨p, hp, rfl⟩ := List.mem_map.mp hx
    rintro rfl
    have hpid : p = (id, p.2) := Prod.ext (by simpa using hy) rfl
    rw [hpid] at hp
    exact List.lookup_ne_none hp hid
  missing id' := by
    rw [List.map_append, List.mem_append, h.missing id', List.mem_append, List.map_cons, List.map_nil,
      List.mem_singleton, List.mem_singleton]
    simp
  shorts := by
    refine List.rel_append (h.shorts.imp fun p n hp => ?_) (.cons (.inr ⟨rfl, by simp⟩) .nil)
    rcases hp with hp | ⟨hp, hmem⟩
    · exact .inl hp
    · exact .inr ⟨hp, List.mem_append_left _ hmem⟩

theorem lt (h : Fresh start found a) (hp : (id, n) ∈ a.staged) : start < n ∧ n ≤ a.next := by
  obtain ⟨i, hi⟩ := List.mem_iff_getElem?.mp hp
  have hn := h.number i _ hi
  have hlt := (List.getElem?_eq_some_iff.mp hi).1
  have hnext := h.next_eq
  simp only at hn
  omega

theorem id_eq (h : Fresh start found a) (hp : (id, n) ∈ a.staged) (hp' : (id', n) ∈ a.staged) : id = id' := by
  obtain ⟨i, hi⟩ := List.mem_iff_getElem?.mp hp
  obtain ⟨j, hj⟩ := List.mem_iff_getElem?.mp hp'
  have hn := h.number i _ hi
  have hn' := h.number j _ hj
  simp only at hn hn'
  have hij : i = j := by omega
  rw [hij, hj, Option.some.injEq, Prod.mk.injEq] at hi
  exact hi.1.symm

theorem short_eq (h : Fresh start found a) (hp : (id, n) ∈ a.staged) (hp' : (id, n') ∈ a.staged) : n = n' :=
  (Prod.mk.inj (List.inj_on_of_nodup_map h.nodup hp hp' rfl)).2

end Fresh

theorem allocate_fresh {start : Nat} : ∀ {ids found : List (Bytes × Option Nat)} {a a' : Alloc},
    Fresh start found a →
    allocate ids a = .ok a' → Fresh start (found ++ ids) a'
  | [], found, a, a', h, ha => by
    cases ha
    rwa [List.append_nil]
  | (id, o) :: ids, found, a, a', h, ha => by
    have happend : found ++ (id, o) :: ids = (found ++ [(id, o)]) ++ ids := by simp
    rw [allocate] at ha
    rw [happend]
    cases ho : o.or (a.staged.lookup id) with
    | some n =>
      rw [ho] at ha
      refine allocate_fresh (h.known ?_) ha
      cases o with
      | some m => exact .inl (by simpa using ho)
      | none => exact .inr ⟨rfl, List.mem_of_lookup (by simpa using ho)⟩
    | none =>
      rw [ho] at ha
      simp only at ha
      split at ha
      · cases ha
      · rename_i hle
        have hnone := Option.or_eq_none_iff.mp ho
        rw [hnone.1]
        exact allocate_fresh (h.new hnone.2 (by omega)) ha

/-! ## The tables of a room -/

/-- Short ids up to the counter, each leading back to its event. -/
structure Valid (f : Slot → Option Bytes) (c : Nat) : Prop where
  counter : decodeCounter (f .counter) = .ok c
  le : c ≤ u32Max
  forward : ∀ e bytes, f (.forward e) = some bytes → ∃ n, n ≤ c ∧ bytes = encodeForward n e ∧
    f (reverseOf n) = some e

/-- Tables that go on from others. -/
structure Extends (f v : Slot → Option Bytes) (c : Nat) : Prop where
  valid : ∃ c', c ≤ c' ∧ Valid v c'
  forward : ∀ e bytes, f (.forward e) = some bytes → v (.forward e) = some bytes
  reverse : ∀ n, n ≤ c → v (reverseOf n) = f (reverseOf n)

theorem ofBeBytes_short {n : Nat} (h : n ≤ u32Max) : ofBeBytes (toBeBytes 4 n) = n := by
  rw [ofBeBytes_toBeBytes]
  apply Nat.mod_eq_of_lt
  unfold u32Max at h
  omega

theorem toBeBytes_short_inj {n m : Nat} (hn : n ≤ u32Max) (hm : m ≤ u32Max) (h : toBeBytes 4 n = toBeBytes 4 m) :
    n = m := by
  have hbytes := congrArg ofBeBytes h
  rwa [ofBeBytes_short hn, ofBeBytes_short hm] at hbytes

theorem reverseOf_inj {n m : Nat} (hn : n ≤ u32Max) (hm : m ≤ u32Max) (h : reverseOf n = reverseOf m) : n = m :=
  toBeBytes_short_inj hn hm (Slot.reverse.inj h)

theorem closureOf_inj {n m : Nat} (hn : n ≤ u32Max) (hm : m ≤ u32Max) (h : closureOf n = closureOf m) : n = m :=
  toBeBytes_short_inj hn hm (Slot.closure.inj h)

theorem decodeForward_encode {n : Nat} (h : n ≤ u32Max) (e : Bytes) :
    decodeForward e (some (encodeForward n e)) = .ok (some n) := by
  simp only [decodeForward, encodeForward, splitAt_append (length_toBeBytes 4 n), if_true, ofBeBytes_short h]

namespace Valid

variable {f v : Slot → Option Bytes} {c c' n : Nat} {e e' : Bytes}

theorem congr (h : Valid f c) (heq : ∀ slot, slot.IsTable → v slot = f slot) : Valid v c where
  counter := by
    rw [heq .counter trivial]
    exact h.counter
  le := h.le
  forward e bytes hf := by
    rw [heq (.forward e) trivial] at hf
    obtain ⟨n, hn, hbytes, hrev⟩ := h.forward e bytes hf
    exact ⟨n, hn, hbytes, (heq (reverseOf n) trivial).trans hrev⟩

theorem counter_eq (h : Valid f c) (hc : decodeCounter (f .counter) = .ok c') : c' = c := by
  rw [h.counter, Except.ok.injEq] at hc
  exact hc.symm

theorem short (h : Valid f c) (hf : decodeForward e (f (.forward e)) = .ok (some n)) :
    n ≤ c ∧ f (.forward e) = some (encodeForward n e) ∧ f (reverseOf n) = some e := by
  cases hb : f (.forward e) with
  | none =>
    rw [hb] at hf
    cases hf
  | some bytes =>
    obtain ⟨m, hm, rfl, hrev⟩ := h.forward e bytes hb
    rw [hb, decodeForward_encode (Nat.le_trans hm h.le), Except.ok.injEq, Option.some.injEq] at hf
    subst hf
    exact ⟨hm, rfl, hrev⟩

theorem none (h : Valid f c) (hf : decodeForward e (f (.forward e)) = .ok .none) : f (.forward e) = .none := by
  cases hb : f (.forward e) with
  | none => rfl
  | some bytes =>
    obtain ⟨m, hm, rfl, -⟩ := h.forward e bytes hb
    rw [hb, decodeForward_encode (Nat.le_trans hm h.le)] at hf
    cases hf

theorem injective (h : Valid f c) (hf : decodeForward e (f (.forward e)) = .ok (some n))
    (hf' : decodeForward e' (f (.forward e')) = .ok (some n)) : e = e' := by
  have hrev := (h.short hf).2.2
  rw [(h.short hf').2.2, Option.some.injEq] at hrev
  exact hrev.symm

/-- Short ids are given out: to ids that had none, and to all those that `v` had given
one to before. -/
theorem allocate {w : Slot → Option Bytes} {found : List (Bytes × Option Nat)} {a : Alloc} (h : Valid f c)
    (ha : Fresh c found a) (hmissing : ∀ id, (id, .none) ∈ found → f (.forward id) = .none)
    (hv : ∀ e, e ∉ a.staged.map Prod.fst → v (.forward e) = f (.forward e))
    (hrev : ∀ n, n ≤ c → v (reverseOf n) = f (reverseOf n))
    (hcounter : decodeCounter (w .counter) = .ok a.next)
    (hforward : ∀ p ∈ a.staged, w (.forward p.1) = some (encodeForward p.2 p.1) ∧ w (reverseOf p.2) = some p.1)
    (hforward' : ∀ e, e ∉ a.staged.map Prod.fst → w (.forward e) = v (.forward e))
    (hreverse' : ∀ n, n ≤ c → w (reverseOf n) = v (reverseOf n)) : Extends f w c where
  valid := by
    refine ⟨a.next, by rw [ha.next_eq]; omega, hcounter, ha.le h.le, fun e bytes hw => ?_⟩
    by_cases he : e ∈ a.staged.map Prod.fst
    · obtain ⟨p, hp, rfl⟩ := List.mem_map.mp he
      rw [(hforward p hp).1, Option.some.injEq] at hw
      exact ⟨p.2, (ha.lt hp).2, hw.symm, (hforward p hp).2⟩
    · rw [hforward' e he, hv e he] at hw
      obtain ⟨n, hn, hbytes, hr⟩ := h.forward e bytes hw
      refine ⟨n, by rw [ha.next_eq]; omega, hbytes, ?_⟩
      rw [hreverse' n hn, hrev n hn, hr]
  forward e bytes hf := by
    have he : e ∉ a.staged.map Prod.fst := by
      intro he
      rw [hmissing e ((ha.missing e).mp he)] at hf
      cases hf
    rw [hforward' e he, hv e he, hf]
  reverse n hn := by rw [hreverse' n hn, hrev n hn]

end Valid

/-! ## Transactions under way -/

section
variable {Id : Type} [DecidableEq Id] {E : Engine Id} (L : Layout Id)

def DbOk (E : Engine Id) (db : E.Db) : Prop := ∀ room, ∃ c, Valid (slots L E db room) c

def txSlots (E : Engine Id) (db : E.Db) (tx : Transaction Id) (room : Bytes) (slot : Slot) : Option Bytes :=
  tx.view (E.get db) (authRecord L room slot)

def authVersion (E : Engine Id) (db : E.Db) (room : Bytes) : Nat :=
  E.version db .edges (L.roomAuthCollectionId room)

def Touched (tx : Transaction Id) (room : Bytes) : Prop :=
  ∃ slot : Slot, slot.IsTable ∧ tx.staged.lookup (authRecord L room slot) ≠ none

def Current (E : Engine Id) (db : E.Db) (tx : Transaction Id) : Prop :=
  ∀ x ∈ tx.expected, E.version db x.1.1 x.1.2 = x.2

/-- A transaction that stages short ids expects the version of the room, and at that
version they go on from those in the store. -/
structure TxOk (E : Engine Id) (db : E.Db) (tx : Transaction Id) : Prop where
  le : ∀ x ∈ tx.expected, x.2 ≤ E.version db x.1.1 x.1.2
  guarded : ∀ room, Touched L tx room → ∃ v, ((ShardType.edges, L.roomAuthCollectionId room), v) ∈ tx.expected
  filled : ∀ room (slot : Slot), slot.domain ≠ none → tx.staged.lookup (authRecord L room slot) ≠ some (some [])
  extend : Current E db tx → ∀ room, Touched L tx room → ∀ c, Valid (slots L E db room) c →
    Extends (slots L E db room) (txSlots L E db tx room) c

/-- What was read of the short ids of some events. -/
structure Found (E : Engine Id) (db : E.Db) (room : Bytes) (version start : Nat)
    (found : List (Bytes × Option Nat)) :
    Prop where
  known : ∀ id n, (id, some n) ∈ found → committedShortId L E db room id = .ok (some n)
  counter : authVersion L E db room = version → decodeCounter (slots L E db room .counter) = .ok start
  missing : authVersion L E db room = version → ∀ id, (id, none) ∈ found →
    committedShortId L E db room id = .ok none

def PhaseOk (E : Engine Id) (db : E.Db) : Phase → Prop
  | .versioned item version => version ≤ authVersion L E db item.room
  | .shorts item version start found todo => version ≤ authVersion L E db item.room ∧
    found.map Prod.fst ++ todo = item.ids ∧ Found L E db item.room version start found
  | .closing item version start alloc _ _ _ _ => version ≤ authVersion L E db item.room ∧
    ∃ found, found.map Prod.fst = item.ids ∧ Fresh start found alloc ∧ Found L E db item.room version start found
  | _ => True

structure TaskOk (E : Engine Id) (db : E.Db) (t : Task Id) : Prop where
  tx : TxOk L E db t.tx
  phase : PhaseOk L E db t.phase

structure Sound (s : State E) : Prop where
  db : DbOk L E s.db
  tasks : ∀ t ∈ s.tasks, TaskOk L E s.db t

/-- When an event is staged that gets short ids, for itself or its auth events, then so
do, again, all to which its transaction has given short ids in the room before. -/
def Once : Action → State E → Prop
  | .run i none, s => ∀ t item version start alloc own closure complete, s.tasks[i]? = some t →
    t.phase = .closing item version start alloc own closure complete [] →
    (∃ id ∈ item.ids, committedShortId L E s.db item.room id = .ok none) →
    ∀ id, t.tx.staged.lookup (authRecord L item.room (.forward id)) ≠ none →
      id ∈ item.ids ∧ committedShortId L E s.db item.room id = .ok none
  | _, _ => True

/-- A later store: no short id of an event is changed. -/
structure Later (E : Engine Id) (db db' : E.Db) : Prop where
  version_le : ∀ shard collection, E.version db shard collection ≤ E.version db' shard collection
  same : ∀ shard collection, E.version db' shard collection = E.version db shard collection →
    ∀ node, E.get db' ⟨shard, collection, node⟩ = E.get db ⟨shard, collection, node⟩
  forward : ∀ room e bytes, slots L E db room (.forward e) = some bytes →
    slots L E db' room (.forward e) = some bytes

variable {L} {db db' : E.Db} {tx tx' : Transaction Id} {room : Bytes} {slot : Slot}

theorem txSlots_of_lookup (h : tx.staged.lookup (authRecord L room slot) = none) :
    txSlots L E db tx room slot = slots L E db room slot := tx.view_of_lookup _ h

theorem txSlots_of_some {data : Option Bytes} (h : tx.staged.lookup (authRecord L room slot) = some data) :
    txSlots L E db tx room slot = data := by
  rw [txSlots, Transaction.view, h, Option.getD_some]

theorem txSlots_congr (h : tx'.staged.lookup (authRecord L room slot) = tx.staged.lookup (authRecord L room slot)) :
    txSlots L E db tx' room slot = txSlots L E db tx room slot := by
  rw [txSlots, txSlots, Transaction.view, Transaction.view, h]

omit [DecidableEq Id] in
theorem Slot.IsTable.domain_ne {slot : Slot} (h : slot.IsTable) : slot.domain ≠ none := by
  cases slot with
  | closure _ => exact h.elim
  | edges _ => exact h.elim
  | counter => simp [domain]
  | forward _ => simp [domain]
  | reverse _ => simp [domain]

theorem Later.slots_eq (h : Later L E db db') (hv : authVersion L E db' room = authVersion L E db room) :
    slots L E db' room = slots L E db room := funext fun _ => h.same _ _ hv _

theorem Later.shortId (h : Later L E db db') {id : Bytes} {n : Nat}
    (hid : committedShortId L E db room id = .ok (some n)) : committedShortId L E db' room id = .ok (some n) := by
  unfold committedShortId at hid ⊢
  cases hb : slots L E db room (.forward id) with
  | none =>
    rw [hb] at hid
    cases hid
  | some bytes => rwa [h.forward room id bytes hb, ← hb]

theorem Found.later {version start : Nat} {found : List (Bytes × Option Nat)}
    (h : Found L E db room version start found) (hlater : Later L E db db')
    (hle : version ≤ authVersion L E db room) :
    Found L E db' room version start found := by
  have hsame : authVersion L E db' room = version →
      authVersion L E db room = version ∧ slots L E db' room = slots L E db room := by
    intro hv
    have hmono : authVersion L E db room ≤ authVersion L E db' room := hlater.version_le _ _
    have heq : authVersion L E db room = version := by omega
    exact ⟨heq, hlater.slots_eq (by omega)⟩
  refine ⟨fun id n hid => hlater.shortId (h.known id n hid), fun hv => ?_, fun hv id hid => ?_⟩
  · obtain ⟨heq, hslots⟩ := hsame hv
    rw [hslots]
    exact h.counter heq
  · obtain ⟨heq, hslots⟩ := hsame hv
    rw [committedShortId, hslots]
    exact h.missing heq id hid

theorem PhaseOk.later {phase : Phase} (h : PhaseOk L E db phase) (hlater : Later L E db db') :
    PhaseOk L E db' phase := by
  have hmono : ∀ {version room}, version ≤ authVersion L E db room → version ≤ authVersion L E db' room :=
    fun hle => Nat.le_trans hle (hlater.version_le _ _)
  cases phase with
  | ready => trivial
  | staged item => trivial
  | done result => trivial
  | versioned item version => exact hmono h
  | shorts item version start found todo => exact ⟨hmono h.1, h.2.1, h.2.2.later hlater h.1⟩
  | closing item version start alloc own closure complete todo =>
    obtain ⟨hle, found, hids, hfresh, hfound⟩ := h
    exact ⟨hmono hle, found, hids, hfresh, hfound.later hlater hle⟩

theorem TxOk.current (h : TxOk L E db tx) (hlater : Later L E db db')
    (hc : Current E db' tx) : Current E db tx := by
  intro x hx
  have h₁ := h.le x hx
  have h₂ := hlater.version_le x.1.1 x.1.2
  have h₃ := hc x hx
  omega

theorem TxOk.later (h : TxOk L E db tx) (hlater : Later L E db db') : TxOk L E db' tx where
  le x hx := Nat.le_trans (h.le x hx) (hlater.version_le _ _)
  guarded := h.guarded
  filled := h.filled
  extend hc room hroom c hvalid := by
    have hc₀ := h.current hlater hc
    obtain ⟨v, hv⟩ := h.guarded room hroom
    have hsame : slots L E db' room = slots L E db room :=
      hlater.slots_eq ((hc _ hv).trans (hc₀ _ hv).symm)
    have htx : txSlots L E db' tx room = txSlots L E db tx room := by
      funext slot
      have hslot : E.get db' (authRecord L room slot) = E.get db (authRecord L room slot) := congrFun hsame slot
      rw [txSlots, txSlots, Transaction.view, Transaction.view, hslot]
    rw [hsame] at hvalid ⊢
    rw [htx]
    exact h.extend hc₀ room hroom c hvalid

theorem TaskOk.later {t : Task Id} (h : TaskOk L E db t) (hlater : Later L E db db') : TaskOk L E db' t :=
  ⟨h.tx.later hlater, h.phase.later hlater⟩

theorem TxOk.commit (h : TxOk L E db tx) (hdb : DbOk L E db) (hcommit : E.commit db tx = .ok db') :
    DbOk L E db' ∧ Later L E db db' := by
  -- only rooms where short ids are staged change, and there the version was the one read
  have hc : Current E db tx := E.commit_expected hcommit
  have hslot : ∀ room (slot : Slot), slot.IsTable → slots L E db' room slot = txSlots L E db tx room slot :=
    fun room slot ht => E.get_of_commit_at hcommit (h.filled room slot ht.domain_ne)
  have hsame : ∀ room, ¬ Touched L tx room → ∀ slot : Slot, slot.IsTable →
      slots L E db' room slot = slots L E db room slot := by
    intro room hroom slot ht
    rw [hslot room slot ht]
    exact txSlots_of_lookup (by_contra fun hl => hroom ⟨slot, ht, hl⟩)
  refine ⟨fun room => ?_, fun _ _ => E.version_le hcommit, fun _ _ heq => E.version_eq hcommit heq,
    fun room e bytes hf => ?_⟩
  · obtain ⟨c, hvalid⟩ := hdb room
    by_cases hroom : Touched L tx room
    · obtain ⟨c', -, hvalid'⟩ := (h.extend hc room hroom c hvalid).valid
      exact ⟨c', hvalid'.congr (hslot room)⟩
    · exact ⟨c, hvalid.congr (hsame room hroom)⟩
  · by_cases hroom : Touched L tx room
    · obtain ⟨c, hvalid⟩ := hdb room
      rw [hslot room (.forward e) trivial]
      exact (h.extend hc room hroom c hvalid).forward e bytes hf
    · rw [hsame room hroom (.forward e) trivial, hf]

/-! ## Staging -/

theorem TxOk.begin : TxOk L E db .begin where
  le x hx := by cases hx
  guarded room h := absurd rfl h.choose_spec.2
  filled room slot _ := by simp [Transaction.begin]
  extend _ room h := absurd rfl h.choose_spec.2

theorem TxOk.congr (h : TxOk L E db tx) (hexpected : tx'.expected = tx.expected)
    (hlookup : ∀ room (slot : Slot), slot.IsTable →
      tx'.staged.lookup (authRecord L room slot) = tx.staged.lookup (authRecord L room slot))
    (hfilled : ∀ room (slot : Slot), slot.domain ≠ none →
      tx'.staged.lookup (authRecord L room slot) ≠ some (some [])) :
    TxOk L E db tx' := by
  have htouched : ∀ room, Touched L tx' room → Touched L tx room := by
    rintro room ⟨slot, ht, hl⟩
    exact ⟨slot, ht, by rwa [← hlookup room slot ht]⟩
  refine ⟨by rw [hexpected]; exact h.le, fun room hroom => ?_, hfilled, fun hc room hroom c hvalid => ?_⟩
  · rw [hexpected]
    exact h.guarded room (htouched room hroom)
  · have hext := h.extend (fun x hx => hc x (hexpected ▸ hx)) room (htouched room hroom) c hvalid
    have hslots : ∀ slot : Slot, slot.IsTable → txSlots L E db tx' room slot = txSlots L E db tx room slot :=
      fun slot ht => txSlots_congr (hlookup room slot ht)
    obtain ⟨c', hle, hvalid'⟩ := hext.valid
    refine ⟨⟨c', hle, hvalid'.congr hslots⟩, fun e bytes hf => ?_, fun n hn => ?_⟩
    · rw [hslots (.forward e) trivial]
      exact hext.forward e bytes hf
    · rw [hslots (reverseOf n) trivial]
      exact hext.reverse n hn

theorem TxOk.put_other (h : TxOk L E db tx) {r : Record Id} (data : Bytes)
    (hr : ∀ room (slot : Slot), slot.domain ≠ none → authRecord L room slot ≠ r) : TxOk L E db (tx.put r data) := by
  have hlookup : ∀ room (slot : Slot), slot.domain ≠ none →
      (tx.put r data).staged.lookup (authRecord L room slot) = tx.staged.lookup (authRecord L room slot) := by
    intro room slot hd
    rw [Transaction.lookup_put, if_neg (hr room slot hd)]
  refine h.congr rfl (fun room slot ht => hlookup room slot ht.domain_ne) fun room slot hd => ?_
  rw [hlookup room slot hd]
  exact h.filled room slot hd

omit [DecidableEq Id] in
theorem authRecord_ne_shard {shard : ShardType} {collection node : Id} (h : shard ≠ .edges) :
    authRecord L room slot ≠ ⟨shard, collection, node⟩ := fun heq => h (Record.mk.inj heq).1.symm

omit [DecidableEq Id] in
theorem authRecord_ne_prev {room' : Bytes} {node : Id} :
    authRecord L room slot ≠ ⟨.edges, L.roomPrevCollectionId room', node⟩ :=
  fun heq => L.auth_ne_prev (Record.mk.inj heq).2.1

omit [DecidableEq Id] in
theorem authRecord_ne_edges {room' e : Bytes} (h : slot.domain ≠ none) :
    authRecord L room slot ≠ authRecord L room' (.edges e) := by
  intro heq
  rw [(authRecord_inj heq).2] at h
  exact h rfl

omit [DecidableEq Id] in
theorem stageEvent_eq {item : Item} {existing : Option Bytes} (h : stageEvent L tx item existing = .ok tx') :
    ∃ locator prev auth, L.encodeEdges item.authEvents = .ok auth ∧
      tx' = (((tx.put ⟨.eventDag, L.roomEventCollectionId item.room, L.ids.eventRecordId item.eventId⟩
        item.body).put
        (locatorRecord L item.eventId) locator).put
        ⟨.edges, L.roomPrevCollectionId item.room, L.ids.eventRecordId item.eventId⟩ prev).put
        (authRecord L item.room (.edges item.eventId)) auth := by
  obtain ⟨_, -, h⟩ := ok_of_bind h
  obtain ⟨locator, -, h⟩ := ok_of_bind h
  obtain ⟨prev, -, h⟩ := ok_of_bind h
  obtain ⟨auth, hauth, h⟩ := ok_of_bind h
  cases h
  exact ⟨locator, prev, auth, hauth, rfl⟩

theorem TxOk.stageEvent {item : Item} {existing : Option Bytes} (h : TxOk L E db tx)
    (hs : stageEvent L tx item existing = .ok tx') : TxOk L E db tx' := by
  obtain ⟨locator, prev, auth, -, rfl⟩ := stageEvent_eq hs
  refine (((h.put_other _ fun _ _ _ => ?_).put_other _ fun _ _ _ => ?_).put_other _ fun _ _ _ => ?_).put_other _
    fun _ _ hd => authRecord_ne_edges hd
  · exact authRecord_ne_shard (by decide)
  · exact authRecord_ne_shard (by decide)
  · exact authRecord_ne_prev

section
variable {item : Item} {version start : Nat} {found : List (Bytes × Option Nat)} {alloc : Alloc} {own : Nat}
  {closure : Bitmap} {complete : Bool}

omit [DecidableEq Id] in
theorem mem_allocWrites {staged : List (Bytes × Nat)} {r : Record Id} {data : Bytes} :
    (r, data) ∈ allocWrites L room staged ↔ ∃ p ∈ staged,
      (r = authRecord L room (.forward p.1) ∧ data = encodeForward p.2 p.1) ∨
        (r = authRecord L room (reverseOf p.2) ∧ data = p.1) := by
  unfold allocWrites
  rw [List.mem_flatMap]
  simp only [List.mem_cons, Prod.mk.injEq, List.not_mem_nil, or_false]

theorem lookup_stageClosure (r : Record Id) :
    (stageClosure L tx room version start alloc own closure complete).staged.lookup r =
      if alloc.next ≠ start ∧ r = authRecord L room .counter then some (some (toBeBytes 4 alloc.next))
      else if complete = true ∧ r = authRecord L room (closureOf own) then some (some (L.encodeBitmap closure))
      else (tx.putMany (allocWrites L room alloc.staged)).staged.lookup r := by
  have hmid : (if complete then (tx.putMany (allocWrites L room alloc.staged)).put
      (authRecord L room (closureOf own)) (L.encodeBitmap closure)
      else tx.putMany (allocWrites L room alloc.staged)).staged.lookup r =
        if complete = true ∧ r = authRecord L room (closureOf own) then some (some (L.encodeBitmap closure))
        else (tx.putMany (allocWrites L room alloc.staged)).staged.lookup r := by
    cases complete with
    | false => simp
    | true => simp [Transaction.lookup_put]
  unfold stageClosure
  simp only
  by_cases hnext : alloc.next ≠ start
  · rw [if_pos hnext]
    refine (Transaction.lookup_put _ _ _ _).trans ?_
    rw [hmid]
    simp only [hnext, ne_eq, not_false_eq_true, true_and]
  · rw [if_neg hnext, hmid]
    simp [hnext]

omit [DecidableEq Id] in
theorem expected_stageClosure :
    (stageClosure L tx room version start alloc own closure complete).expected =
      if alloc.next ≠ start then ((.edges, L.roomAuthCollectionId room), version) :: tx.expected else
        tx.expected := by
  have hmid : (if complete then (tx.putMany (allocWrites L room alloc.staged)).put
      (authRecord L room (closureOf own)) (L.encodeBitmap closure)
      else tx.putMany (allocWrites L room alloc.staged)).expected = tx.expected := by
    cases complete with
    | false => exact tx.expected_putMany _
    | true => exact tx.expected_putMany _
  unfold stageClosure
  simp only
  split
  · exact congrArg _ hmid
  · exact hmid

variable (slot) in
theorem lookup_stageClosure_table (ht : slot.IsTable) (hslot : slot ≠ .counter) :
    (stageClosure L tx room version start alloc own closure complete).staged.lookup (authRecord L room slot) =
      (tx.putMany (allocWrites L room alloc.staged)).staged.lookup (authRecord L room slot) := by
  rw [lookup_stageClosure, if_neg fun h => hslot (authRecord_inj h.2).2, if_neg]
  rintro ⟨-, heq⟩
  rw [(authRecord_inj heq).2] at ht
  exact ht

theorem lookup_stageClosure_room {room' : Bytes} (hroom : room' ≠ room) :
    (stageClosure L tx room version start alloc own closure complete).staged.lookup (authRecord L room' slot) =
      tx.staged.lookup (authRecord L room' slot) := by
  rw [lookup_stageClosure, if_neg fun h => hroom (authRecord_inj h.2).1, if_neg fun h => hroom
    (authRecord_inj h.2).1]
  refine tx.lookup_putMany_of_not_mem fun data hmem => ?_
  obtain ⟨p, -, (⟨hr, -⟩ | ⟨hr, -⟩)⟩ := mem_allocWrites.mp hmem
  · exact hroom (authRecord_inj hr).1
  · exact hroom (authRecord_inj hr).1

theorem lookup_forward_other {e : Bytes} (he : e ∉ alloc.staged.map Prod.fst) :
    (stageClosure L tx room version start alloc own closure complete).staged.lookup
      (authRecord L room (.forward e)) =
      tx.staged.lookup (authRecord L room (.forward e)) := by
  rw [lookup_stageClosure_table (.forward e) trivial (by simp)]
  refine tx.lookup_putMany_of_not_mem fun data hmem => ?_
  obtain ⟨q, hq, (⟨hr, -⟩ | ⟨hr, -⟩)⟩ := mem_allocWrites.mp hmem
  · rw [Slot.forward.inj (authRecord_inj hr).2] at he
    exact he (List.mem_map_of_mem hq)
  · cases (authRecord_inj hr).2

section
variable (hfresh : Fresh start found alloc) (hle : start ≤ u32Max)
include hfresh

theorem lookup_forward_staged {p : Bytes × Nat} (hp : p ∈ alloc.staged) :
    (stageClosure L tx room version start alloc own closure complete).staged.lookup
      (authRecord L room (.forward p.1)) =
      some (some (encodeForward p.2 p.1)) := by
  rw [lookup_stageClosure_table (.forward p.1) trivial (by simp)]
  refine tx.lookup_putMany_of_mem (mem_allocWrites.mpr ⟨p, hp, .inl ⟨rfl, rfl⟩⟩) fun data hmem => ?_
  obtain ⟨q, hq, (⟨hr, rfl⟩ | ⟨hr, -⟩)⟩ := mem_allocWrites.mp hmem
  · have hid : p.1 = q.1 := Slot.forward.inj (authRecord_inj hr).2
    have hpq : (q.1, p.2) ∈ alloc.staged := hid ▸ hp
    rw [hfresh.short_eq hpq hq, hid]
  · cases (authRecord_inj hr).2

include hle

theorem lookup_reverse_staged {p : Bytes × Nat} (hp : p ∈ alloc.staged) :
    (stageClosure L tx room version start alloc own closure complete).staged.lookup
      (authRecord L room (reverseOf p.2)) = some (some p.1) := by
  rw [lookup_stageClosure_table (reverseOf p.2) trivial (by simp [reverseOf])]
  refine tx.lookup_putMany_of_mem (mem_allocWrites.mpr ⟨p, hp, .inr ⟨rfl, rfl⟩⟩) fun data hmem => ?_
  obtain ⟨q, hq, (⟨hr, -⟩ | ⟨hr, rfl⟩)⟩ := mem_allocWrites.mp hmem
  · cases (authRecord_inj hr).2
  · have hmax := hfresh.le hle
    have hp₂ := (hfresh.lt hp).2
    have hq₂ := (hfresh.lt hq).2
    have hn : p.2 = q.2 := reverseOf_inj (by omega) (by omega) (authRecord_inj hr).2
    have hpq : (p.1, q.2) ∈ alloc.staged := hn ▸ hp
    exact hfresh.id_eq hq hpq

theorem lookup_reverse_below {n : Nat} (hn : n ≤ start) :
    (stageClosure L tx room version start alloc own closure complete).staged.lookup
      (authRecord L room (reverseOf n)) =
      tx.staged.lookup (authRecord L room (reverseOf n)) := by
  rw [lookup_stageClosure_table (reverseOf n) trivial (by simp [reverseOf])]
  refine tx.lookup_putMany_of_not_mem fun data hmem => ?_
  obtain ⟨q, hq, (⟨hr, -⟩ | ⟨hr, -⟩)⟩ := mem_allocWrites.mp hmem
  · cases (authRecord_inj hr).2
  · have hmax := hfresh.le hle
    have hq₂ := hfresh.lt hq
    have heq : n = q.2 := reverseOf_inj (by omega) (by omega) (authRecord_inj hr).2
    omega

end

theorem TxOk.stageClosure_filled (h : TxOk L E db tx) (hfresh : Fresh start found alloc)
    (hids : found.map Prod.fst = item.ids) (room : Bytes) (slot : Slot) (hd : slot.domain ≠ none) :
    (stageClosure L tx item.room version start alloc own closure complete).staged.lookup (authRecord L room slot) ≠
      some (some []) := by
  rw [lookup_stageClosure]
  split
  · intro heq
    have hlen := congrArg List.length (Option.some.inj (Option.some.inj heq))
    rw [length_toBeBytes] at hlen
    cases hlen
  · split
    · intro heq
      exact L.encodeBitmap_ne (Option.some.inj (Option.some.inj heq))
    · intro hl
      rcases tx.lookup_putMany hl with ⟨data, hmem, hdata⟩ | hl
      · cases hdata
        obtain ⟨p, hp, (⟨-, hbytes⟩ | ⟨-, hbytes⟩)⟩ := mem_allocWrites.mp hmem
        · have hlen := congrArg List.length hbytes
          rw [encodeForward, List.length_append, length_toBeBytes, List.length_nil] at hlen
          omega
        · have hfound := (hfresh.missing p.1).mp (List.mem_map_of_mem hp)
          have hid : p.1 ∈ item.ids := by
            rw [← hids]
            exact List.mem_map.mpr ⟨_, hfound, rfl⟩
          rcases List.mem_cons.mp hid with heq | hauth
          · exact item.eventId_ne (heq ▸ hbytes.symm)
          · exact item.auth_ne _ hauth hbytes.symm
      · exact h.filled room slot hd hl

theorem TxOk.stageClosure_nil (h : TxOk L E db tx) (hfresh : Fresh start found alloc)
    (hids : found.map Prod.fst = item.ids) (hnil : alloc.staged = []) :
    TxOk L E db (stageClosure L tx item.room version start alloc own closure complete) := by
  have hnext : ¬ alloc.next ≠ start := by
    have hlen := hfresh.next_eq
    rw [hnil] at hlen
    exact not_not_intro hlen
  refine h.congr (by rw [expected_stageClosure, if_neg hnext]) (fun room slot ht => ?_)
    (h.stageClosure_filled hfresh hids)
  rw [lookup_stageClosure, if_neg fun hc => hnext hc.1, if_neg, hnil]
  · rfl
  · rintro ⟨-, heq⟩
    rw [(authRecord_inj heq).2] at ht
    exact ht

section
variable (hfresh : Fresh start found alloc) (hids : found.map Prod.fst = item.ids)
  (hfound : Found L E db item.room version start found) (hcons : alloc.staged ≠ [])
  (honce : (∃ id ∈ item.ids, committedShortId L E db item.room id = .ok none) →
    ∀ id, tx.staged.lookup (authRecord L item.room (.forward id)) ≠ none →
      id ∈ item.ids ∧ committedShortId L E db item.room id = .ok none)
include hfresh hids hfound hcons honce

theorem lookup_forward_again (hversion : authVersion L E db item.room = version) {e : Bytes}
    (he : e ∉ alloc.staged.map Prod.fst) : tx.staged.lookup (authRecord L item.room (.forward e)) = none := by
  obtain ⟨p, hp⟩ := List.exists_mem_of_ne_nil _ hcons
  have hpfound := (hfresh.missing p.1).mp (List.mem_map_of_mem hp)
  have hsome : ∃ id ∈ item.ids, committedShortId L E db item.room id = .ok none := by
    refine ⟨p.1, ?_, hfound.missing hversion _ hpfound⟩
    rw [← hids]
    exact List.mem_map.mpr ⟨_, hpfound, rfl⟩
  -- an id given out before is again one of those that are missing
  by_contra hl
  obtain ⟨hmem, hnone⟩ := honce hsome e hl
  rw [← hids] at hmem
  obtain ⟨⟨id, o⟩, hq, rfl⟩ := List.mem_map.mp hmem
  cases o with
  | none => exact he ((hfresh.missing id).mpr hq)
  | some n =>
    rw [hfound.known id n hq] at hnone
    cases hnone

theorem TxOk.stageClosure_extend (h : TxOk L E db tx) (hc : Current E db tx)
    (hversion : authVersion L E db item.room = version) {c : Nat} (hvalid : Valid (slots L E db item.room) c) :
    Extends (slots L E db item.room)
      (txSlots L E db (stageClosure L tx item.room version start alloc own closure complete) item.room) c := by
  have hstart : start = c := hvalid.counter_eq (hfound.counter hversion)
  subst hstart
  have hnext : alloc.next ≠ start := by
    have hlen := List.length_pos_iff.mpr hcons
    rw [hfresh.next_eq]
    omega
  have hrev : ∀ n, n ≤ start → txSlots L E db tx item.room (reverseOf n) = slots L E db
      item.room (reverseOf n) := by
    intro n hn
    by_cases ht : Touched L tx item.room
    · exact (h.extend hc item.room ht start hvalid).reverse n hn
    · exact txSlots_of_lookup (by_contra fun hl => ht ⟨reverseOf n, trivial, hl⟩)
  refine hvalid.allocate hfresh (fun id hid => hvalid.none (hfound.missing hversion id hid))
    (fun e he => txSlots_of_lookup (lookup_forward_again hfresh hids hfound hcons honce hversion he)) hrev ?_
    (fun p hp => ?_) (fun e he => txSlots_congr (lookup_forward_other he))
    fun n hn => txSlots_congr (lookup_reverse_below hfresh hvalid.le hn)
  · have hcounter : txSlots L E db (stageClosure L tx item.room version start alloc own closure complete) item.room
        .counter = some (toBeBytes 4 alloc.next) := by
      refine txSlots_of_some ?_
      rw [lookup_stageClosure, if_pos ⟨hnext, rfl⟩]
    rw [hcounter, decodeCounter, if_pos (length_toBeBytes 4 _), ofBeBytes_short (hfresh.le hvalid.le)]
  · exact ⟨txSlots_of_some (lookup_forward_staged hfresh hp),
      txSlots_of_some (lookup_reverse_staged hfresh hvalid.le hp)⟩

theorem TxOk.stageClosure_cons (h : TxOk L E db tx) (hle : version ≤ authVersion L E db item.room) :
    TxOk L E db (stageClosure L tx item.room version start alloc own closure complete) := by
  have hexpected : (stageClosure L tx item.room version start alloc own closure complete).expected =
      ((.edges, L.roomAuthCollectionId item.room), version) :: tx.expected := by
    have hlen := List.length_pos_iff.mpr hcons
    rw [expected_stageClosure, if_pos (by rw [hfresh.next_eq]; omega)]
  have htouched : ∀ room, room ≠ item.room →
      Touched L (stageClosure L tx item.room version start alloc own closure complete) room →
        Touched L tx room := by
    rintro room hroom ⟨slot, ht, hl⟩
    exact ⟨slot, ht, by rwa [lookup_stageClosure_room hroom] at hl⟩
  refine ⟨fun x hx => ?_, fun room hroom => ?_, h.stageClosure_filled hfresh hids, fun hc room hroom c hvalid => ?_⟩
  · rw [hexpected] at hx
    rcases List.mem_cons.mp hx with rfl | hx
    · exact hle
    · exact h.le x hx
  · rw [hexpected]
    by_cases heq : room = item.room
    · rw [heq]
      exact ⟨version, List.mem_cons_self⟩
    · obtain ⟨v, hv⟩ := h.guarded room (htouched room heq hroom)
      exact ⟨v, List.mem_cons_of_mem _ hv⟩
  -- a transaction that is current now is so without this event too, in the other rooms
  · rw [Current, hexpected, List.forall_mem_cons] at hc
    by_cases heq : room = item.room
    · subst heq
      exact h.stageClosure_extend hfresh hids hfound hcons honce hc.2 hc.1 hvalid
    · have hslots : txSlots L E db (stageClosure L tx item.room version start alloc own closure complete) room =
          txSlots L E db tx room := funext fun slot => txSlots_congr (lookup_stageClosure_room heq)
      rw [hslots]
      exact h.extend hc.2 room (htouched room heq hroom) c hvalid

end

end

/-! ## Steps -/

variable {t : Task Id}

theorem TaskOk.start (items : List Item) (retries : Bool) (attempts : Nat) :
    TaskOk L E db (Task.start items retries attempts) := ⟨.begin, trivial⟩

theorem TaskOk.fail (h : TaskOk L E db t) (e : StorageError) : TaskOk L E db (t.fail e) := by
  unfold Task.fail
  split
  · exact .start _ _ _
  · exact ⟨h.tx, trivial⟩

theorem Found.read {version start : Nat} {found : List (Bytes × Option Nat)} {id : Bytes} {o : Option Nat}
    (h : Found L E db room version start found) (hid : committedShortId L E db room id = .ok o) :
    Found L E db room version start (found ++ [(id, o)]) := by
  refine ⟨fun id' n hmem => ?_, h.counter, fun hv id' hmem => ?_⟩
  · rcases List.mem_append.mp hmem with hmem | hmem
    · exact h.known id' n hmem
    · obtain ⟨rfl, rfl⟩ := Prod.mk.inj (List.mem_singleton.mp hmem)
      exact hid
  · rcases List.mem_append.mp hmem with hmem | hmem
    · exact h.missing hv id' hmem
    · obtain ⟨rfl, rfl⟩ := Prod.mk.inj (List.mem_singleton.mp hmem)
      exact hid

theorem TaskOk.next (h : TaskOk L E db t) (hcommits : t.commits = false)
    (honce : ∀ item version start alloc own closure complete,
      t.phase = .closing item version start alloc own closure complete [] →
      (∃ id ∈ item.ids, committedShortId L E db item.room id = .ok none) →
      ∀ id, t.tx.staged.lookup (authRecord L item.room (.forward id)) ≠ none →
        id ∈ item.ids ∧ committedShortId L E db item.room id = .ok none) :
    (t.next L db).2 = db ∧ TaskOk L E db (t.next L db).1 := by
  have hphase := h.phase
  cases hp : t.phase with
  | ready =>
    cases hleft : t.left with
    | nil => simp [Task.commits, hp, hleft] at hcommits
    | cons item left =>
      simp only [Task.next, hp, hleft]
      split
      · rename_i tx' hs
        exact ⟨rfl, h.tx.stageEvent hs, trivial⟩
      · exact ⟨rfl, h.fail _⟩
  | staged item =>
    simp only [Task.next, hp, true_and]
    exact ⟨h.tx, Nat.le_refl _⟩
  | versioned item version =>
    rw [hp] at hphase
    simp only [Task.next, hp]
    split
    · rename_i start hstart
      refine ⟨rfl, h.tx, hphase, rfl, fun id n hmem => ?_, fun _ => hstart, fun _ id hmem => ?_⟩
      · cases hmem
      · cases hmem
    · exact ⟨rfl, h.fail _⟩
  | shorts item version start found todo =>
    rw [hp] at hphase
    obtain ⟨hle, hids, hfound⟩ := hphase
    cases todo with
    | cons id todo =>
      simp only [Task.next, hp]
      split
      · rename_i short hshort
        refine ⟨rfl, h.tx, hle, ?_, hfound.read hshort⟩
        simpa using hids
      · exact ⟨rfl, h.fail _⟩
    | nil =>
      simp only [Task.next, hp]
      split
      · rename_i alloc halloc
        split
        · refine ⟨rfl, h.tx, hle, found, by simpa using hids, ?_, hfound⟩
          exact allocate_fresh (Fresh.refl start) halloc
        · exact ⟨rfl, h.fail _⟩
      · exact ⟨rfl, h.fail _⟩
  | closing item version start alloc own closure complete todo =>
    rw [hp] at hphase
    cases todo with
    | cons short todo =>
      simp only [Task.next, hp]
      split
      · split
        · exact ⟨rfl, h.tx, hphase⟩
        · exact ⟨rfl, h.fail _⟩
      · exact ⟨rfl, h.tx, hphase⟩
    | nil =>
      obtain ⟨hle, found, hids, hfresh, hfound⟩ := hphase
      simp only [Task.next, hp, true_and]
      refine ⟨?_, trivial⟩
      by_cases hnil : alloc.staged = []
      · exact h.tx.stageClosure_nil hfresh hids hnil
      · exact h.tx.stageClosure_cons hfresh hids hfound hnil (honce _ _ _ _ _ _ _ hp) hle
  | done result =>
    simp only [Task.next, hp, true_and]
    exact h

variable {s s' : State E} {i : Nat}

theorem Sound.set (h : Sound L s) (hi : s.tasks[i]? = some t) (hdb : DbOk L E db') (hlater : Later L E s.db db')
    {new : Task Id} (hnew : TaskOk L E db' new) : Sound L ⟨db', s.tasks.set i new⟩ := by
  refine ⟨hdb, fun t' ht' => ?_⟩
  rcases mem_set_of_some hi ht' with rfl | ⟨j, -, hj⟩
  · exact hnew
  · exact (h.tasks t' (List.mem_of_getElem? hj)).later hlater

theorem Later.refl (db : E.Db) : Later L E db db :=
  ⟨fun _ _ => Nat.le_refl _, fun _ _ _ _ => rfl, fun _ _ _ h => h⟩

theorem Later.trans {db'' : E.Db} (h : Later L E db db') (h' : Later L E db' db'') : Later L E db db'' where
  version_le shard collection := Nat.le_trans (h.version_le shard collection) (h'.version_le shard collection)
  same shard collection heq node := by
    have h₁ := h.version_le shard collection
    have h₂ := h'.version_le shard collection
    rw [h'.same shard collection (by omega) node, h.same shard collection (by omega) node]
  forward room e bytes hf := h'.forward room e bytes (h.forward room e bytes hf)

theorem Sound.commit (h : Sound L s) (hi : s.tasks[i]? = some t) (hcommits : t.commits = true) :
    Sound L ⟨(t.next L s.db).2, s.tasks.set i (t.next L s.db).1⟩ ∧ Later L E s.db (t.next L s.db).2 := by
  have ht := h.tasks t (List.mem_of_getElem? hi)
  have hp := Task.commits_eq_true hcommits
  simp only [Task.next, hp.1, hp.2]
  split
  · rename_i db' hcommit
    obtain ⟨hdb, hlater⟩ := ht.tx.commit h.db hcommit
    exact ⟨h.set hi hdb hlater ⟨ht.tx.later hlater, trivial⟩, hlater⟩
  · exact ⟨h.set hi h.db (.refl _) (ht.fail _), .refl _⟩

theorem step_sound {a : Action} (h : Sound L s) (hok : Once L a s) (hs : step L a s = some s') :
    Sound L s' ∧ Later L E s.db s'.db := by
  have happend : ∀ items retries,
      Sound L { s with tasks := s.tasks ++ [Task.start items retries 0] } := by
    intro items retries
    refine ⟨h.db, fun t ht => ?_⟩
    rcases List.mem_append.mp ht with ht | ht
    · exact h.tasks t ht
    · rw [List.mem_singleton.mp ht]
      exact .start _ _ _
  cases a with
  | write item =>
    cases hs
    exact ⟨happend _ _, .refl _⟩
  | transact items =>
    cases hs
    exact ⟨happend _ _, .refl _⟩
  | run i fault =>
    obtain ⟨t, hi, hs⟩ := Option.bind_eq_some_iff.mp hs
    have ht := h.tasks t (List.mem_of_getElem? hi)
    split at hs
    · cases hs
    · cases fault with
      | some e =>
        cases hs
        exact ⟨h.set hi h.db (.refl _) (ht.fail e), .refl _⟩
      | none =>
        cases hs
        by_cases hcommits : t.commits = true
        · exact h.commit hi hcommits
        · obtain ⟨hdb, hnew⟩ :=
            ht.next (by simpa using hcommits) fun item version start alloc own closure complete hp =>
            hok t item version start alloc own closure complete hi hp
          rw [hdb]
          exact ⟨h.set hi h.db (.refl _) hnew, .refl _⟩

theorem empty_sound (hempty : ∀ r, E.get db r = none) : Sound L (⟨db, []⟩ : State E) := by
  refine ⟨fun room => ⟨0, ?_, by decide, fun e bytes hf => ?_⟩, fun t ht => by cases ht⟩
  · rw [slots, hempty]
    rfl
  · rw [slots, hempty] at hf
    cases hf

/-- In every run of writes and transactions, whatever their order, an event keeps its
short id, the short id leads back to it, and no other event of the room ever has it, as
long as transactions give short ids only once. -/
theorem short_ids_injective (hempty : ∀ r, E.get db r = none) (hrun : Reaches (step L) (Once L) ⟨db, []⟩ s)
    (hlater : Reaches (step L) (Once L) s s') {room e e' : Bytes} {n : Nat}
    (he : committedShortId L E s.db room e = .ok (some n)) :
    slots L E s.db room (reverseOf n) = some e ∧ committedShortId L E s'.db room e = .ok (some n) ∧
      (committedShortId L E s'.db room e' = .ok (some n) → e' = e) := by
  have hsound : Sound L s := hrun.invariant (empty_sound hempty) fun _ _ _ h hok hs => (step_sound h hok hs).1
  have hend : Sound L s' ∧ Later L E s.db s'.db := by
    refine Reaches.invariant (P := fun s' => Sound L s' ∧ Later L E s.db s'.db) ⟨hsound, .refl _⟩
      (fun a s₁ s₂ h hok hs => ?_) hlater
    obtain ⟨h₂, hl⟩ := step_sound h.1 hok hs
    exact ⟨h₂, h.2.trans hl⟩
  obtain ⟨c, hvalid⟩ := hsound.db room
  obtain ⟨c', hvalid'⟩ := hend.1.db room
  have he' := hend.2.shortId he
  exact ⟨(hvalid.short he).2.2, he', fun h => hvalid'.injective h he'⟩

end

/-! ## Two events of a new room -/

/-- The short ids of two events, and where the first one leads. -/
def plainShorts (s : PlainState) : Except StorageError (Option Nat) × Except StorageError
    (Option Nat) × Option Bytes :=
  (committedShortId plainLayout (logged (String × Bytes)) s.db [33] [97],
    committedShortId plainLayout (logged (String × Bytes)) s.db [33] [98],
    slots plainLayout (logged (String × Bytes)) s.db [33] (reverseOf 1))

def plainEvent (e : UInt8) : Item := plainItem [33] [e] [] (by simp) (by simp)

/-- In one transaction, both read the counter that is in the store, and get the same short id. -/
theorem staged_together_share_short_id : ∃ s : PlainState, Reaches plainStep (fun _ _ => True)
    ⟨([] : Log _), []⟩ s ∧
    committedShortId plainLayout (logged (String × Bytes)) s.db [33] [97] = .ok (some 1) ∧
    committedShortId plainLayout (logged (String × Bytes)) s.db [33] [98] = .ok (some 1) ∧
    slots plainLayout (logged (String × Bytes)) s.db [33] (reverseOf 1) = some [98] := by
  have hrun : (runWhile plainStep (fun _ _ => True)
      (.transact [plainEvent 97, plainEvent 98] :: List.replicate 13 (.run 0 none))
      (⟨([] : Log _), []⟩ : PlainState)).map plainShorts = some (.ok (some 1), .ok (some 1), some [98]) := by
    decide
  obtain ⟨s, hs, hv⟩ := Option.map_eq_some_iff.mp hrun
  obtain ⟨ha, hb⟩ := Prod.mk.inj hv
  obtain ⟨hb, hrev⟩ := Prod.mk.inj hb
  exact ⟨s, Reaches.of_runWhile _ .init hs, ha, hb, hrev⟩

/-- The transaction has given no short ids. -/
def plainOnce : Action → PlainState → Bool
  | .run i none, s => (s.tasks[i]?).all fun t =>
    match t.phase with
    | .closing .. => t.tx.staged.all fun m => m.1.node.1 ≠ "authchain:fwd"
    | _ => true
  | _, _ => true

theorem once_of_plain {a : Action} {s : PlainState} (h : plainOnce a s = true) : Once plainLayout a s := by
  cases a with
  | write item => trivial
  | transact items => trivial
  | run i fault =>
    cases fault with
    | some e => trivial
    | none =>
      intro t item version start alloc own closure complete hi hp _ id hl
      simp only [plainOnce, hi, Option.all_some, hp] at h
      obtain ⟨data, hdata⟩ := Option.ne_none_iff_exists'.mp hl
      have hm := List.all_eq_true.mp h _ (List.mem_of_lookup hdata)
      simp [authRecord, Slot.node, Slot.domain, plainLayout, plainIds] at hm

/-- Two writers at once: one is overtaken, reads the counter again, and gets the next short id. -/
theorem overtaken_writer_gets_next : ∃ s : PlainState,
    Reaches (step plainLayout) (Once plainLayout) ⟨([] : Log _), []⟩ s ∧
    committedShortId plainLayout (logged (String × Bytes)) s.db [33] [97] = .ok (some 2) ∧
    committedShortId plainLayout (logged (String × Bytes)) s.db [33] [98] = .ok (some 1) ∧
    slots plainLayout (logged (String × Bytes)) s.db [33] (reverseOf 1) = some [98] ∧
    ∀ e, committedShortId plainLayout (logged (String × Bytes)) s.db [33] e = .ok (some 2) → e = [97] := by
  have hrun : (runWhile plainStep (fun a s => plainOnce a s = true)
      ([Action.write (plainEvent 97), Action.write (plainEvent 98)] ++ List.replicate 6 (Action.run 0 none) ++
        List.replicate 7 (Action.run 1 none) ++ List.replicate 8 (Action.run 0 none))
      (⟨([] : Log _), []⟩ : PlainState)).map plainShorts = some (.ok (some 2), .ok (some 1), some [98]) := by
    decide
  obtain ⟨s, hs, hv⟩ := Option.map_eq_some_iff.mp hrun
  obtain ⟨ha, hb⟩ := Prod.mk.inj hv
  obtain ⟨hb, hrev⟩ := Prod.mk.inj hb
  have hreach := (Reaches.of_runWhile _ .init hs).mono fun a s => once_of_plain (a := a) (s := s)
  refine ⟨s, hreach, ha, hb, hrev, fun e he => ?_⟩
  exact (short_ids_injective (fun _ => rfl) hreach .init ha).2.2 he

end Congruent.EventWrites
