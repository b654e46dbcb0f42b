import Congruent.EventShortIds
import Mathlib.Data.List.Perm.Subperm

/-!
# Stored auth closures

The closure of an event is written once all its auth events have one, as the union of
theirs. So it has all that a walk finds, and an event that is among its own ancestors
never gets one.
-/

namespace Congruent.EventWrites

open Store

section
variable {Id : Type} (L : Layout Id) (authOf : Bytes → Bytes → List Bytes)

/-- An event, or one that is found going up from it. -/
abbrev Up (room e a : Bytes) : Prop := Relation.ReflTransGen (fun x y => y ∈ authOf room x) e a

/-- What a walk reads for an event. -/
def edgesAt (f : Slot → Option Bytes) (e : Bytes) : Except StorageError (List Bytes) :=
  (f (.edges e)).elim (.ok []) L.decodeEdges

def shortOf (f : Slot → Option Bytes) (e : Bytes) : Except StorageError (Option Nat) :=
  decodeForward e (f (.forward e))

def HasClosure (f : Slot → Option Bytes) (e : Bytes) : Prop :=
  ∃ n, shortOf f e = .ok (some n) ∧ (f (closureOf n)).isSome = true

/-- The short ids of some events and of all above them. -/
structure Covers (f : Slot → Option Bytes) (room : Bytes) (ids : List Bytes) (b : Bitmap) : Prop where
  closed : ∀ p ∈ ids, HasClosure f p
  mem_iff : ∀ n, n ∈ b ↔ ∃ p ∈ ids, ∃ a, Up authOf room p a ∧ shortOf f a = .ok (some n)

/-- What is stored as the closure of an event. -/
structure Exact (f : Slot → Option Bytes) (room e : Bytes) (b : Bitmap) : Prop where
  covers : Covers authOf f room (authOf room e) b
  written : edgesAt L f e = .ok (authOf room e)
  acyclic : ∀ p ∈ authOf room e, ¬ Up authOf room p e

structure Closures (f : Slot → Option Bytes) (room : Bytes) : Prop where
  owned : ∀ n, n ≤ u32Max → (f (closureOf n)).isSome = true → ∃ e, shortOf f e = .ok (some n)
  exact : ∀ e n bytes, shortOf f e = .ok (some n) → f (closureOf n) = some bytes →
    ∃ b, L.decodeBitmap bytes = .ok b ∧ Exact L authOf f room e b

variable {L authOf} {f g : Slot → Option Bytes} {room e : Bytes} {b : Bitmap}

theorem Closures.hasClosure (h : Closures L authOf f room) (he : HasClosure f e) :
    ∃ b, Exact L authOf f room e b := by
  obtain ⟨n, hn, hsome⟩ := he
  obtain ⟨bytes, hbytes⟩ := Option.isSome_iff_exists.mp hsome
  obtain ⟨b, -, hexact⟩ := h.exact e n bytes hn hbytes
  exact ⟨b, hexact⟩

theorem Closures.up (h : Closures L authOf f room) {a : Bytes} (he : HasClosure f e) (hup : Up authOf room e a) :
    HasClosure f a := by
  induction hup with
  | refl => exact he
  | tail _ hstep ih =>
    obtain ⟨b, hexact⟩ := h.hasClosure ih
    exact hexact.covers.closed _ hstep

theorem Closures.acyclic (h : Closures L authOf f room) (hcovers : Covers authOf f room (authOf room e) b) :
    ∀ p ∈ authOf room e, ¬ Up authOf room p e := by
  intro p hp hup
  obtain ⟨b, hexact⟩ := h.hasClosure (h.up (hcovers.closed p hp) hup)
  exact hexact.acyclic p hp hup

/-! ## Later stores -/

/-- Short ids and closures that stay. -/
structure Keeps (f g : Slot → Option Bytes) : Prop where
  forward : ∀ e bytes, f (.forward e) = some bytes → g (.forward e) = some bytes
  closure : ∀ n, (f (closureOf n)).isSome = true → (g (closureOf n)).isSome = true

theorem Keeps.short (h : Keeps f g) {n : Nat} (he : shortOf f e = .ok (some n)) : shortOf g e = .ok (some n) := by
  unfold shortOf at he ⊢
  cases hb : f (.forward e) with
  | none =>
    rw [hb] at he
    cases he
  | some bytes => rwa [h.forward e bytes hb, ← hb]

theorem Keeps.hasClosure (h : Keeps f g) (he : HasClosure f e) : HasClosure g e := by
  obtain ⟨n, hn, hsome⟩ := he
  exact ⟨n, h.short hn, h.closure n hsome⟩

theorem Covers.keeps {ids : List Bytes} (h : Covers authOf f room ids b) (hclosures : Closures L authOf f room)
    (hkeeps : Keeps f g) : Covers authOf g room ids b where
  closed p hp := hkeeps.hasClosure (h.closed p hp)
  mem_iff n := by
    rw [h.mem_iff]
    constructor
    · rintro ⟨p, hp, a, hup, ha⟩
      exact ⟨p, hp, a, hup, hkeeps.short ha⟩
    · rintro ⟨p, hp, a, hup, ha⟩
      obtain ⟨m, hm, -⟩ := hclosures.up (h.closed p hp) hup
      have heq := hkeeps.short hm
      rw [ha, Except.ok.injEq, Option.some.injEq] at heq
      exact ⟨p, hp, a, hup, heq ▸ hm⟩

theorem Exact.keeps (h : Exact L authOf f room e b) (hclosures : Closures L authOf f room) (hkeeps : Keeps f g)
    (hwritten : edgesAt L g e = .ok (authOf room e)) : Exact L authOf g room e b :=
  ⟨h.covers.keeps hclosures hkeeps, hwritten, h.acyclic⟩

theorem Covers.add {ids : List Bytes} {p : Bytes} {b' : Bitmap} {n : Nat} (h : Covers authOf f room ids b)
    (hclosure : HasClosure f p) (hshort : shortOf f p = .ok (some n)) (hexact : Exact L authOf f room p b') :
    Covers authOf f room (ids ++ [p]) ((b.insert n).union b') where
  closed q hq := by
    rcases List.mem_append.mp hq with hq | hq
    · exact h.closed q hq
    · rwa [List.mem_singleton.mp hq]
  mem_iff m := by
    rw [Bitmap.mem_union, Bitmap.mem_insert, h.mem_iff, hexact.covers.mem_iff]
    constructor
    · rintro ((rfl | ⟨q, hq, a, hup, ha⟩) | ⟨q, hq, a, hup, ha⟩)
      · exact ⟨p, by simp, p, .refl, hshort⟩
      · exact ⟨q, List.mem_append_left _ hq, a, hup, ha⟩
      · exact ⟨p, by simp, a, .head hq hup, ha⟩
    · rintro ⟨q, hq, a, hup, ha⟩
      rcases List.mem_append.mp hq with hq | hq
      · exact .inl (.inr ⟨q, hq, a, hup, ha⟩)
      · rw [List.mem_singleton.mp hq] at hup
        rcases hup.cases_head with rfl | ⟨c, hc, hup⟩
        · rw [hshort, Except.ok.injEq, Option.some.injEq] at ha
          exact .inl (.inl ha.symm)
        · exact .inr ⟨c, hc, a, hup, ha⟩

theorem covers_nil (f : Slot → Option Bytes) (room : Bytes) : Covers authOf f room [] .empty where
  closed p hp := by cases hp
  mem_iff n := by
    refine ⟨fun h => absurd h (Bitmap.not_mem_empty n), ?_⟩
    rintro ⟨p, hp, -⟩
    cases hp

end

/-! ## Writes of one event -/

section
variable {Id : Type} [DecidableEq Id] {E : Engine Id} (L : Layout Id) (authOf : Bytes → Bytes → List Bytes)

/-- The event is staged, its short ids are not. -/
structure Plain (tx : Transaction Id) (item : Item) (auth : Bytes) : Prop where
  expected : tx.expected = []
  encoded : L.encodeEdges item.authEvents = .ok auth
  lookup : ∀ room slot, tx.staged.lookup (authRecord L room slot) =
    if room = item.room ∧ slot = .edges item.eventId then some (some auth) else none

/-- The short id of an event that was read or given out. -/
def Short (alloc : Alloc) (p : Bytes × Option Nat) (n : Nat) : Prop :=
  p.2 = some n ∨ p.2 = none ∧ (p.1, n) ∈ alloc.staged

/-- What was gathered for a closure: short ids, and closures of those in `done`. It
counts if no short ids were given out, or the version is still the one read. -/
structure Gathered (E : Engine Id) (db : E.Db) (item : Item) (version start : Nat) (alloc : Alloc) (own : Nat)
    (closure : Bitmap) (complete : Bool) (todo : List Nat) (o : Option Nat)
    (done left : List (Bytes × Option Nat)) :
    Prop where
  le : version ≤ authVersion L E db item.room
  ids : (done ++ left).map Prod.fst = item.authEvents
  fresh : Fresh start ((item.eventId, o) :: (done ++ left)) alloc
  found : Found L E db item.room version start ((item.eventId, o) :: (done ++ left))
  own : Short alloc (item.eventId, o) own
  left : List.Forall₂ (Short alloc) left todo
  covers : alloc.staged = [] ∨ authVersion L E db item.room = version → complete = true →
    Covers authOf (slots L E db item.room) item.room (done.map Prod.fst) closure

/-- Where the write of one event stands. -/
def Writing (E : Engine Id) (db : E.Db) (item : Item) (left : List Item) (tx : Transaction Id) : Phase → Prop
  | .ready => (left = [item] ∧ tx = .begin) ∨
    left = [] ∧ ∃ tx₀ auth version start alloc own closure complete o done, Plain L tx₀ item auth ∧
      Gathered L authOf E db item version start alloc own closure complete [] o done [] ∧
      tx = stageClosure L tx₀ item.room version start alloc own closure complete
  | .staged item' => item' = item ∧ left = [] ∧ ∃ auth, Plain L tx item auth
  | .versioned item' _ => item' = item ∧ left = [] ∧ ∃ auth, Plain L tx item auth
  | .shorts item' _ _ _ _ => item' = item ∧ left = [] ∧ ∃ auth, Plain L tx item auth
  | .closing item' version start alloc own closure complete todo => item' = item ∧ left = [] ∧
    (∃ auth, Plain L tx item auth) ∧
    ∃ o done rest, Gathered L authOf E db item version start alloc own closure complete todo o done rest
  | .done _ => True

def TaskWrites (E : Engine Id) (db : E.Db) (t : Task Id) : Prop :=
  ∃ item, t.items = [item] ∧ item.authEvents = authOf item.room item.eventId ∧
    Writing L authOf E db item t.left t.tx t.phase

structure Good (s : State E) : Prop where
  sound : Sound L s
  closures : ∀ room, Closures L authOf (slots L E s.db room) room
  writes : ∀ t ∈ s.tasks, TaskWrites L authOf E s.db t

def SameAuth : Action → State E → Prop
  | .write item, _ => item.authEvents = authOf item.room item.eventId
  | .transact _, _ => False
  | .run _ _, _ => True

variable {L authOf} {db db' : E.Db} {item : Item} {tx : Transaction Id} {t : Task Id}

/-! ### Later stores -/

/-- What a commit of another write leaves. -/
structure LaterToo (L : Layout Id) (authOf : Bytes → Bytes → List Bytes) (E : Engine Id)
    (db db' : E.Db) : Prop where
  later : Later L E db db'
  closures : ∀ room, Closures L authOf (slots L E db room) room
  keeps : ∀ room, Keeps (slots L E db room) (slots L E db' room)

theorem Gathered.later {version start : Nat} {alloc : Alloc} {own : Nat} {closure : Bitmap} {complete : Bool}
    {todo : List Nat} {o : Option Nat} {done left : List (Bytes × Option Nat)}
    (h : Gathered L authOf E db item version start alloc own closure complete todo o done left)
    (hlater : LaterToo L authOf E db db') :
    Gathered L authOf E db' item version start alloc own closure complete todo o done left where
  le := Nat.le_trans h.le (hlater.later.version_le _ _)
  ids := h.ids
  fresh := h.fresh
  found := h.found.later hlater.later h.le
  own := h.own
  left := h.left
  covers hc hcomplete := by
    have hbefore : alloc.staged = [] ∨ authVersion L E db item.room = version := by
      refine hc.imp_right fun hv => ?_
      have h₁ : authVersion L E db item.room ≤ authVersion L E db' item.room := hlater.later.version_le _ _
      have h₂ := h.le
      omega
    exact (h.covers hbefore hcomplete).keeps (hlater.closures item.room) (hlater.keeps item.room)

theorem Writing.later {left : List Item} {phase : Phase} (h : Writing L authOf E db item left tx phase)
    (hlater : LaterToo L authOf E db db') : Writing L authOf E db' item left tx phase := by
  cases phase with
  | ready =>
    rcases h with h | ⟨hleft, tx₀, auth, version, start, alloc, own, closure, complete, o, done, hplain, hg, htx⟩
    · exact .inl h
    · exact .inr ⟨hleft, tx₀, auth, version, start, alloc, own, closure, complete, o, done, hplain,
        hg.later hlater, htx⟩
  | staged item' => exact h
  | versioned item' version => exact h
  | shorts item' version start found todo => exact h
  | closing item' version start alloc own closure complete todo =>
    obtain ⟨hitem, hleft, hplain, o, done, rest, hg⟩ := h
    exact ⟨hitem, hleft, hplain, o, done, rest, hg.later hlater⟩
  | done result => trivial

theorem TaskWrites.later (h : TaskWrites L authOf E db t) (hlater : LaterToo L authOf E db db') :
    TaskWrites L authOf E db' t := by
  obtain ⟨item, hitems, hauth, hw⟩ := h
  exact ⟨item, hitems, hauth, hw.later hlater⟩

/-! ### Reads -/

theorem plain_of_stageEvent {existing : Option Bytes} (h : stageEvent L .begin item existing = .ok tx) :
    ∃ auth, Plain L tx item auth := by
  obtain ⟨locator, prev, auth, hauth, rfl⟩ := stageEvent_eq h
  refine ⟨auth, rfl, hauth, fun room slot => ?_⟩
  have hevent : authRecord L room slot ≠
      ⟨.eventDag, L.roomEventCollectionId item.room, L.ids.eventRecordId item.eventId⟩ :=
    authRecord_ne_shard (by decide)
  have hlocator : authRecord L room slot ≠ locatorRecord L item.eventId := authRecord_ne_shard (by decide)
  have hprev : authRecord L room slot ≠ ⟨.edges, L.roomPrevCollectionId item.room,
      L.ids.eventRecordId item.eventId⟩ :=
    authRecord_ne_prev
  simp only [Transaction.lookup_put, if_neg hevent, if_neg hlocator, if_neg hprev]
  by_cases heq : room = item.room ∧ slot = .edges item.eventId
  · rw [if_pos heq, if_pos (by rw [heq.1, heq.2])]
  · rw [if_neg heq, if_neg fun hr => heq (authRecord_inj hr)]
    rfl

omit [DecidableEq Id] in
theorem decodeClosure_eq {bytes : Bytes} {b : Bitmap} (h : decodeClosure L bytes = .ok b) :
    L.decodeBitmap bytes = .ok b := by
  unfold decodeClosure at h
  cases hd : L.decodeBitmap bytes with
  | error e =>
    rw [hd] at h
    cases h
  | ok b' =>
    rw [hd] at h
    cases h
    rfl

section
variable {version start : Nat} {alloc : Alloc} {own short : Nat} {closure closure' : Bitmap}
  {complete complete' : Bool}
  {todo : List Nat} {o : Option Nat} {done left : List (Bytes × Option Nat)}

theorem Gathered.next
    (h : Gathered L authOf E db item version start alloc own closure complete (short :: todo) o done left)
    (hcovers : ∀ p ∈ left, Short alloc p short → alloc.staged = [] ∨ authVersion L E db item.room = version →
      complete' = true → complete = true ∧
        (Covers authOf (slots L E db item.room) item.room (done.map Prod.fst) closure →
          Covers authOf (slots L E db item.room) item.room (done.map Prod.fst ++ [p.1]) closure')) :
    ∃ done left, Gathered L authOf E db item version start alloc own closure' complete' todo o done left := by
  cases hleft : h.left with
  | @cons p _ left' _ hp hrest =>
    have happend : done ++ p :: left' = (done ++ [p]) ++ left' := by simp
    refine ⟨done ++ [p], left', h.le, ?_, ?_, ?_, h.own, hrest, fun hc hcomplete => ?_⟩
    · rw [← happend]
      exact h.ids
    · rw [← happend]
      exact h.fresh
    · rw [← happend]
      exact h.found
    · obtain ⟨hbefore, hadd⟩ := hcovers p List.mem_cons_self hp hc hcomplete
      rw [List.map_append]
      exact hadd (h.covers hc hbefore)

theorem Gathered.start_eq (h : Gathered L authOf E db item version start alloc own closure
    complete todo o done left)
    {id : Bytes} {n : Nat} (hstaged : (id, n) ∈ alloc.staged)
    (hc : alloc.staged = [] ∨ authVersion L E db item.room = version) {c : Nat}
    (hvalid : Valid (slots L E db item.room) c) : start = c := by
  have hversion : authVersion L E db item.room = version := by
    refine hc.resolve_left fun hnil => ?_
    rw [hnil] at hstaged
    cases hstaged
  exact hvalid.counter_eq (h.found.counter hversion)

theorem Gathered.short_eq (h : Gathered L authOf E db item version start alloc own closure
    complete todo o done left)
    (hdb : DbOk L E db) (hclosures : Closures L authOf (slots L E db item.room) item.room)
    (hsome : (slots L E db item.room (closureOf short)).isSome = true)
    (hc : alloc.staged = [] ∨ authVersion L E db item.room = version) {p : Bytes × Option Nat}
    (hp : Short alloc p short) (hmem : p ∈ (item.eventId, o) :: (done ++ left)) :
    shortOf (slots L E db item.room) p.1 = .ok (some short) := by
  obtain ⟨id, o'⟩ := p
  rcases hp with hp | ⟨-, hstaged⟩
  · exact h.found.known id short (hp ▸ hmem)
  · obtain ⟨c, hvalid⟩ := hdb item.room
    have hstart := h.start_eq hstaged hc hvalid
    have hlt := h.fresh.lt hstaged
    have hmax := h.fresh.le (hstart ▸ hvalid.le)
    -- a short id given out just now is past the counter, and no closure is stored for it yet
    obtain ⟨e, he⟩ := hclosures.owned short (Nat.le_trans hlt.2 hmax) hsome
    have hle := (hvalid.short he).1
    omega

theorem Gathered.read
    (h : Gathered L authOf E db item version start alloc own closure complete (short :: todo) o done left)
    (hdb : DbOk L E db) (hclosures : Closures L authOf (slots L E db item.room) item.room) {bytes : Bytes}
    (hbytes : slots L E db item.room (closureOf short) = some bytes) {stored : Bitmap}
    (hstored : decodeClosure L bytes = .ok stored) :
    ∃ done left, Gathered L authOf E db item version start alloc own ((closure.insert short).union stored) complete
      todo o done left := by
  refine h.next fun p hp hshort hc hcomplete => ⟨hcomplete, fun hcovers => ?_⟩
  have hsome : (slots L E db item.room (closureOf short)).isSome = true := by
    rw [hbytes]
    rfl
  have hp₁ := h.short_eq hdb hclosures hsome hc hshort (List.mem_cons_of_mem _ (List.mem_append_right _ hp))
  obtain ⟨b, hb, hexact⟩ := hclosures.exact p.1 short bytes hp₁ hbytes
  rw [decodeClosure_eq hstored, Except.ok.injEq] at hb
  subst hb
  exact hcovers.add ⟨short, hp₁, hsome⟩ hp₁ hexact

theorem Gathered.miss
    (h : Gathered L authOf E db item version start alloc own closure complete (short :: todo) o done left) :
    ∃ done left, Gathered L authOf E db item version start alloc own (closure.insert short)
      false todo o done left :=
  h.next fun _ _ _ _ hfalse => by cases hfalse

end

theorem gathered_of_shorts {version start : Nat} {found : List (Bytes × Option Nat)} {alloc : Alloc} {own : Nat}
    {auth : List Nat} (hphase : PhaseOk L E db (.shorts item version start found []))
    (halloc : allocate found ⟨start, [], []⟩ = .ok alloc) (hshorts : alloc.shorts = own :: auth) :
    ∃ o left, Gathered L authOf E db item version start alloc own .empty true auth o [] left := by
  obtain ⟨hle, hids, hfound⟩ := hphase
  have hfresh : Fresh start found alloc := allocate_fresh (Fresh.refl start) halloc
  rw [List.append_nil] at hids
  cases found with
  | nil => cases hids
  | cons p left =>
    obtain ⟨id, o⟩ := p
    obtain ⟨rfl, hauth⟩ := List.cons.inj hids
    have hforall := hfresh.shorts
    rw [hshorts] at hforall
    obtain ⟨hown, hleft⟩ := List.forall₂_cons.mp hforall
    exact ⟨o, left, hle, hauth, hfresh, hfound, hown, hleft, fun _ _ => covers_nil _ _⟩

theorem TaskWrites.fail (h : TaskWrites L authOf E db t) (e : StorageError) : TaskWrites L authOf
    E db (t.fail e) := by
  obtain ⟨item, hitems, hauth, -⟩ := h
  unfold Task.fail
  split
  · exact ⟨item, hitems, hauth, .inl ⟨hitems, rfl⟩⟩
  · exact ⟨item, hitems, hauth, trivial⟩

theorem TaskWrites.next (h : TaskWrites L authOf E db t) (hok : TaskOk L E db t) (hdb : DbOk L E db)
    (hclosures : ∀ room, Closures L authOf (slots L E db room) room) (hcommits : t.commits = false) :
    TaskWrites L authOf E db (t.next L db).1 := by
  have hfail := h.fail
  obtain ⟨item, hitems, hauth, hw⟩ := h
  have hphase := hok.phase
  cases hp : t.phase with
  | ready =>
    rw [hp] at hw
    cases hleft : t.left with
    | nil => simp [Task.commits, hp, hleft] at hcommits
    | cons item' left =>
      rcases hw with ⟨hl, htx⟩ | ⟨hl, -⟩
      · obtain ⟨rfl, rfl⟩ := List.cons.inj (hleft.symm.trans hl)
        simp only [Task.next, hp, hleft]
        split
        · rename_i tx hs
          rw [htx] at hs
          exact ⟨item', hitems, hauth, rfl, rfl, plain_of_stageEvent hs⟩
        · exact hfail _
      · rw [hl] at hleft
        cases hleft
  | staged item' =>
    rw [hp] at hw
    simp only [Task.next, hp]
    exact ⟨item, hitems, hauth, hw⟩
  | versioned item' version =>
    rw [hp] at hw
    simp only [Task.next, hp]
    split
    · exact ⟨item, hitems, hauth, hw⟩
    · exact hfail _
  | shorts item' version start found todo =>
    rw [hp] at hw hphase
    obtain ⟨rfl, hleft, hplain⟩ := hw
    cases todo with
    | cons id todo =>
      simp only [Task.next, hp]
      split
      · exact ⟨item', hitems, hauth, rfl, hleft, hplain⟩
      · exact hfail _
    | nil =>
      simp only [Task.next, hp]
      split
      · rename_i alloc halloc
        split
        · rename_i own auth hshorts
          obtain ⟨o, left, hg⟩ := gathered_of_shorts hphase halloc hshorts
          exact ⟨item', hitems, hauth, rfl, hleft, hplain, o, [], left, hg⟩
        · exact hfail _
      · exact hfail _
  | closing item' version start alloc own closure complete todo =>
    rw [hp] at hw
    obtain ⟨rfl, hleft, hplain, o, done, rest, hg⟩ := hw
    cases todo with
    | cons short todo =>
      simp only [Task.next, hp]
      split
      · rename_i bytes hbytes
        split
        · rename_i stored hstored
          obtain ⟨done, rest, hg⟩ := hg.read hdb (hclosures _) hbytes hstored
          exact ⟨item', hitems, hauth, rfl, hleft, hplain, o, done, rest, hg⟩
        · exact hfail _
      · obtain ⟨done, rest, hg⟩ := hg.miss
        exact ⟨item', hitems, hauth, rfl, hleft, hplain, o, done, rest, hg⟩
    | nil =>
      simp only [Task.next, hp]
      obtain ⟨auth, hplain⟩ := hplain
      have hnil : rest = [] := List.forall₂_nil_right_iff.mp hg.left
      subst hnil
      exact ⟨item', hitems, hauth, .inr ⟨hleft, t.tx, auth, version, start, alloc, own, closure,
        complete, o, done, hplain,
        hg, rfl⟩⟩
  | done result =>
    simp only [Task.next, hp]
    exact ⟨item, hitems, hauth, by rw [hp]; trivial⟩

/-! ### Commits -/

theorem closureOf_not_table (n : Nat) : ¬ (closureOf n).IsTable := fun h => h

theorem edges_not_table (e : Bytes) : ¬ (Slot.edges e).IsTable := fun h => h

section
variable {tx₀ : Transaction Id} {auth : Bytes} {version start : Nat} {alloc : Alloc} {own : Nat} {closure : Bitmap}
  {complete : Bool} {o : Option Nat} {done : List (Bytes × Option Nat)}
  (hplain : Plain L tx₀ item auth)
  (hg : Gathered L authOf E db item version start alloc own closure complete [] o done [])
  (hcommit : E.commit db (stageClosure L tx₀ item.room version start alloc own closure complete) = .ok db')
include hplain

theorem lookup_beside {slot : Slot} (ht : ¬ slot.IsTable) (hslot : complete = true → slot ≠ closureOf own) :
    (stageClosure L tx₀ item.room version start alloc own closure complete).staged.lookup
      (authRecord L item.room slot) = if slot = .edges item.eventId then some (some auth) else none := by
  rw [lookup_stageClosure, if_neg, if_neg, tx₀.lookup_putMany_of_not_mem, hplain.lookup]
  · simp
  · intro data hmem
    obtain ⟨p, -, (⟨hr, -⟩ | ⟨hr, -⟩)⟩ := mem_allocWrites.mp hmem
    · rw [(authRecord_inj hr).2] at ht
      exact ht trivial
    · rw [(authRecord_inj hr).2] at ht
      exact ht trivial
  · rintro ⟨hcomplete, hr⟩
    exact hslot hcomplete (authRecord_inj hr).2
  · rintro ⟨-, hr⟩
    rw [(authRecord_inj hr).2] at ht
    exact ht trivial

include hcommit

theorem slots_of_room {room : Bytes} (hroom : room ≠ item.room) : slots L E db' room = slots L E db room := by
  funext slot
  refine E.commit_other hcommit ?_
  rw [lookup_stageClosure_room hroom, hplain.lookup, if_neg fun h => hroom h.1]

theorem slots_closure {n : Nat} (hn : complete = true → closureOf n ≠ closureOf own) :
    slots L E db' item.room (closureOf n) = slots L E db item.room (closureOf n) := by
  refine E.commit_other hcommit ?_
  rw [lookup_beside hplain (closureOf_not_table n) hn]
  rfl

omit hplain in
theorem slots_closure_own (hcomplete : complete = true) :
    slots L E db' item.room (closureOf own) = some (L.encodeBitmap closure) := by
  refine E.commit_put hcommit ?_ L.encodeBitmap_ne
  rw [lookup_stageClosure, if_neg, if_pos ⟨hcomplete, rfl⟩]
  rintro ⟨-, hr⟩
  cases (authRecord_inj hr).2

theorem edgesAt_own : edgesAt L (slots L E db' item.room) item.eventId = .ok item.authEvents := by
  have hlookup : (stageClosure L tx₀ item.room version start alloc own closure complete).staged.lookup
      (authRecord L item.room (.edges item.eventId)) = some (some auth) := by
    rw [lookup_beside hplain (edges_not_table _) (by rintro - ⟨⟩), if_pos rfl]
  have hdecode := L.decodeEdges_encode hplain.encoded
  unfold edgesAt slots
  by_cases hempty : auth = []
  · subst hempty
    have hnil := L.encodeEdges_nil hplain.encoded
    rcases E.commit_put_empty hcommit hlookup with hget | hget
    · rw [hget, hnil]
      rfl
    · rw [hget]
      exact hdecode
  · rw [E.commit_put hcommit hlookup hempty]
    exact hdecode

theorem edgesAt_other {e : Bytes} (he : e ≠ item.eventId) :
    edgesAt L (slots L E db' item.room) e = edgesAt L (slots L E db item.room) e := by
  have hslot : slots L E db' item.room (.edges e) = slots L E db item.room (.edges e) := by
    refine E.commit_other hcommit ?_
    rw [lookup_beside hplain (edges_not_table _) (by rintro - ⟨⟩), if_neg]
    exact fun heq => he (Slot.edges.inj heq)
  rw [edgesAt, edgesAt, hslot]

theorem keeps_of_commit (hlater : Later L E db db') (room : Bytes) :
    Keeps (slots L E db room) (slots L E db' room) := by
  refine ⟨fun e bytes hf => hlater.forward room e bytes hf, fun n hn => ?_⟩
  by_cases hroom : room = item.room
  · subst hroom
    by_cases hown : complete = true ∧ closureOf n = closureOf own
    · rw [hown.2, slots_closure_own hcommit hown.1]
      rfl
    · rwa [slots_closure hplain hcommit fun hc heq => hown ⟨hc, heq⟩]
  · rwa [slots_of_room hplain hcommit hroom]

include hg

omit hplain in
theorem Gathered.counts : alloc.staged = [] ∨ authVersion L E db item.room = version := by
  by_cases hnil : alloc.staged = []
  · exact .inl hnil
  · have hlen := List.length_pos_iff.mpr hnil
    have hnext : alloc.next ≠ start := by
      rw [hg.fresh.next_eq]
      omega
    refine .inr (E.commit_expected hcommit ((.edges, L.roomAuthCollectionId item.room), version) ?_)
    rw [expected_stageClosure, if_pos hnext]
    exact List.mem_cons_self

omit hplain in
theorem Gathered.own_eq (hdb : DbOk L E db) (hlater : Later L E db db') :
    own ≤ u32Max ∧ shortOf (slots L E db' item.room) item.eventId = .ok (some own) := by
  obtain ⟨c, hvalid⟩ := hdb item.room
  rcases hg.own with ho | ⟨-, hstaged⟩
  · have hown : committedShortId L E db item.room item.eventId = .ok (some own) :=
      hg.found.known _ _ (by rw [← ho]; exact List.mem_cons_self)
    exact ⟨Nat.le_trans (hvalid.short hown).1 hvalid.le, hlater.shortId hown⟩
  · have hstart := hg.start_eq hstaged (hg.counts hcommit) hvalid
    have hle : own ≤ u32Max := Nat.le_trans (hg.fresh.lt hstaged).2 (hg.fresh.le (hstart ▸ hvalid.le))
    have hforward : slots L E db' item.room (.forward item.eventId) = some (encodeForward own item.eventId) := by
      refine E.commit_put hcommit (lookup_forward_staged hg.fresh hstaged) ?_
      intro hempty
      have hlen := congrArg List.length hempty
      simp [encodeForward] at hlen
    refine ⟨hle, ?_⟩
    rw [shortOf, hforward, decodeForward_encode hle]

theorem Gathered.closures (hauth : item.authEvents = authOf item.room item.eventId) (hdb : DbOk L E db)
    (hdb' : DbOk L E db') (hlater : Later L E db db')
    (hclosures : ∀ room, Closures L authOf (slots L E db room) room) (room : Bytes) :
    Closures L authOf (slots L E db' room) room := by
  by_cases hroom : room = item.room
  swap
  · rw [slots_of_room hplain hcommit hroom]
    exact hclosures room
  subst hroom
  have hkeeps := keeps_of_commit hplain hcommit hlater item.room
  obtain ⟨hle, hown⟩ := hg.own_eq hcommit hdb hlater
  obtain ⟨c', hvalid'⟩ := hdb' item.room
  have hmax : ∀ {e n}, shortOf (slots L E db' item.room) e = .ok (some n) → n ≤ u32Max :=
    fun he => Nat.le_trans (hvalid'.short he).1 hvalid'.le
  refine ⟨fun n hn hsome => ?_, fun e n bytes he hbytes => ?_⟩
  -- a stored closure belongs to an event: the one written, or the one it had before
  · by_cases hn' : complete = true ∧ closureOf n = closureOf own
    · rw [closureOf_inj hn hle hn'.2]
      exact ⟨item.eventId, hown⟩
    · rw [slots_closure hplain hcommit fun hc heq => hn' ⟨hc, heq⟩] at hsome
      obtain ⟨e, he⟩ := (hclosures item.room).owned n hn hsome
      exact ⟨e, hkeeps.short he⟩
  · by_cases hn' : complete = true ∧ closureOf n = closureOf own
    · obtain ⟨hcomplete, hn'⟩ := hn'
      have hn := closureOf_inj (hmax he) hle hn'
      subst hn
      have heq : e = item.eventId := hvalid'.injective he hown
      subst heq
      rw [slots_closure_own hcommit hcomplete, Option.some.injEq] at hbytes
      have hcovers := hg.covers (hg.counts hcommit) hcomplete
      have hids : done.map Prod.fst = authOf item.room item.eventId := by
        rw [← hauth, ← hg.ids, List.append_nil]
      rw [hids] at hcovers
      have hcovers' := hcovers.keeps (hclosures item.room) hkeeps
      refine ⟨closure, ?_, hcovers', ?_, (hclosures item.room).acyclic hcovers⟩
      · rw [← hbytes]
        refine L.decodeBitmap_encode fun m hm => ?_
        obtain ⟨p, -, a, -, ha⟩ := (hcovers'.mem_iff m).mp hm
        exact hmax ha
      · rw [edgesAt_own hplain hcommit, hauth]
    -- an older closure: its events have kept their short ids and their edges
    · rw [slots_closure hplain hcommit fun hc heq => hn' ⟨hc, heq⟩] at hbytes
      obtain ⟨e', he'⟩ := (hclosures item.room).owned n (hmax he) (by rw [hbytes]; rfl)
      have heq : e' = e := hvalid'.injective (hkeeps.short he') he
      subst heq
      obtain ⟨b, hb, hexact⟩ := (hclosures item.room).exact e' n bytes he' hbytes
      refine ⟨b, hb, hexact.keeps (hclosures item.room) hkeeps ?_⟩
      by_cases heq : e' = item.eventId
      · rw [heq, edgesAt_own hplain hcommit, hauth]
      · rw [edgesAt_other hplain hcommit heq]
        exact hexact.written

end

/-! ### Steps -/

variable {s s' : State E} {i : Nat}

theorem LaterToo.refl (h : ∀ room, Closures L authOf (slots L E db room) room) : LaterToo L authOf E db db :=
  ⟨.refl db, h, fun _ => ⟨fun _ _ hf => hf, fun _ hn => hn⟩⟩

theorem Good.set (h : Good L authOf s) (hi : s.tasks[i]? = some t) {new : Task Id}
    (hsound : Sound L (⟨db', s.tasks.set i new⟩ : State E))
    (hclosures : ∀ room, Closures L authOf (slots L E db' room) room) (hlater : LaterToo L authOf E s.db db')
    (hnew : TaskWrites L authOf E db' new) :
    Good L authOf (⟨db', s.tasks.set i new⟩ : State E) := by
  refine ⟨hsound, hclosures, fun t' ht' => ?_⟩
  rcases mem_set_of_some hi ht' with rfl | ⟨j, -, hj⟩
  · exact hnew
  · exact (h.writes t' (List.mem_of_getElem? hj)).later hlater

theorem Good.once (h : Good L authOf s) (a : Action) : Once L a s := by
  cases a with
  | write item => trivial
  | transact items => trivial
  | run i fault =>
    cases fault with
    | some e => trivial
    | none =>
      intro t item version start alloc own closure complete hi hp _ id hl
      obtain ⟨item', -, -, hw⟩ := h.writes t (List.mem_of_getElem? hi)
      rw [hp] at hw
      obtain ⟨-, -, ⟨auth, hplain⟩, -⟩ := hw
      rw [hplain.lookup, if_neg (by rintro ⟨-, ⟨⟩⟩)] at hl
      exact absurd rfl hl

theorem Good.commit (h : Good L authOf s) (hi : s.tasks[i]? = some t) (hcommits : t.commits = true)
    (hsound : Sound L (⟨(t.next L s.db).2, s.tasks.set i (t.next L s.db).1⟩ : State E)) :
    Good L authOf (⟨(t.next L s.db).2, s.tasks.set i (t.next L s.db).1⟩ : State E) := by
  have hmem := List.mem_of_getElem? hi
  have hfail := (h.writes t hmem).fail
  obtain ⟨item, hitems, hauth, hw⟩ := h.writes t hmem
  have hp := Task.commits_eq_true hcommits
  rw [hp.1, hp.2] at hw
  rcases hw with ⟨hl, -⟩ | ⟨-, tx₀, auth, version, start, alloc, own, closure, complete, o, done, hplain, hg, htx⟩
  · cases hl
  · have hok := h.sound.tasks t hmem
    simp only [Task.next, hp.1, hp.2] at hsound ⊢
    split
    · rename_i db' hcommit
      rw [hcommit] at hsound
      obtain ⟨-, hlater⟩ := hok.tx.commit h.sound.db hcommit
      rw [htx] at hcommit
      have hclosures := hg.closures hplain hcommit hauth h.sound.db hsound.db hlater h.closures
      refine h.set hi hsound hclosures ⟨hlater, h.closures, keeps_of_commit hplain hcommit hlater⟩ ?_
      exact ⟨item, hitems, hauth, trivial⟩
    · rename_i e hcommit
      rw [hcommit] at hsound
      exact h.set hi hsound h.closures (.refl h.closures) (hfail e)

theorem step_good {a : Action} (h : Good L authOf s) (hok : SameAuth authOf a s) (hs : step L a s = some s') :
    Good L authOf s' := by
  have hsound := (step_sound h.sound (h.once a) hs).1
  cases a with
  | write item =>
    cases hs
    refine ⟨hsound, h.closures, fun t ht => ?_⟩
    rcases List.mem_append.mp ht with ht | ht
    · exact h.writes t ht
    · rw [List.mem_singleton.mp ht]
      exact ⟨item, rfl, hok, .inl ⟨rfl, rfl⟩⟩
  | transact items => exact hok.elim
  | run i fault =>
    obtain ⟨t, hi, hs⟩ := Option.bind_eq_some_iff.mp hs
    have hmem := List.mem_of_getElem? hi
    split at hs
    · cases hs
    · cases fault with
      | some e =>
        cases hs
        exact h.set hi hsound h.closures (.refl h.closures) ((h.writes t hmem).fail e)
      | none =>
        cases hs
        by_cases hcommits : t.commits = true
        · exact h.commit hi hcommits hsound
        · have hcommits : t.commits = false := by simpa using hcommits
          have hdb : (t.next L s.db).2 = s.db := by
            refine ((h.sound.tasks t hmem).next hcommits
              fun item version start alloc own closure complete hp => ?_).1
            exact h.once (.run i none) t item version start alloc own closure complete hi hp
          have hnew := (h.writes t hmem).next (h.sound.tasks t hmem) h.sound.db h.closures hcommits
          rw [hdb] at hsound ⊢
          exact h.set hi hsound h.closures (.refl h.closures) hnew

theorem empty_good (hempty : ∀ r, E.get db r = none) : Good L authOf (⟨db, []⟩ : State E) := by
  have hslot : ∀ room slot, slots L E db room slot = none := fun room slot => hempty _
  refine ⟨empty_sound hempty, fun room => ⟨fun n _ hsome => ?_, fun e n bytes _ hbytes => ?_⟩,
    fun t ht => by cases ht⟩
  · rw [hslot] at hsome
    cases hsome
  · rw [hslot] at hbytes
    cases hbytes

end

/-! ## Walks -/

structure Grown (w w' : Walk) : Prop where
  seen : ∀ x ∈ w.seen, x ∈ w'.seen
  found : ∀ x ∈ w'.seen, x ∈ w.seen ∨ x ∈ w'.next
  next : ∀ x ∈ w.next, x ∈ w'.next
  length : w'.chain.length + w.next.length = w.chain.length + w'.next.length

namespace Grown

theorem refl (w : Walk) : Grown w w := ⟨fun _ h => h, fun _ h => .inl h, fun _ h => h, rfl⟩

theorem trans {w w' w'' : Walk} (h : Grown w w') (h' : Grown w' w'') : Grown w w'' where
  seen x hx := h'.seen x (h.seen x hx)
  found x hx := by
    rcases h'.found x hx with hx | hx
    · exact (h.found x hx).imp_right (h'.next x)
    · exact .inr hx
  next x hx := h'.next x (h.next x hx)
  length := by
    have h₁ := h.length
    have h₂ := h'.length
    omega

theorem find (w : Walk) (a : Bytes) : Grown w (w.find a) := by
  unfold Walk.find
  split
  · exact refl w
  · refine ⟨fun x hx => List.mem_cons_of_mem _ hx, fun x hx => ?_, fun x hx => List.mem_append_left _ hx, ?_⟩
    · rcases List.mem_cons.mp hx with rfl | hx
      · exact .inr (List.mem_append_right _ List.mem_cons_self)
      · exact .inl hx
    · simp only [List.length_append, List.length_cons, List.length_nil]
      omega

end Grown

section
variable {Id : Type} [DecidableEq Id] {E : Engine Id} {L : Layout Id}
  {authOf : Bytes → Bytes → List Bytes} {db : E.Db}
  {room e : Bytes}

/-- A walk from an event has seen it and what it found, which is above it. -/
structure WalkOk (authOf : Bytes → Bytes → List Bytes) (room e : Bytes) (w : Walk) : Prop where
  seen_iff : ∀ x, x ∈ w.seen ↔ x = e ∨ x ∈ w.chain
  above : ∀ x ∈ w.chain, ∃ p ∈ authOf room e, Up authOf room p x
  next : ∀ x ∈ w.next, x ∈ w.seen
  nodup : w.chain.Nodup

namespace WalkOk

variable {w w' : Walk}

theorem up (h : WalkOk authOf room e w) {x : Bytes} (hx : x ∈ w.seen) : Up authOf room e x := by
  rcases (h.seen_iff x).mp hx with rfl | hx
  · exact .refl
  · obtain ⟨p, hp, hup⟩ := h.above x hx
    exact .head hp hup

theorem find (h : WalkOk authOf room e w) {x a : Bytes} (hx : Up authOf room e x) (ha : a ∈ authOf room x) :
    WalkOk authOf room e (w.find a) ∧ a ∈ (w.find a).seen := by
  unfold Walk.find
  split
  · rename_i hseen
    exact ⟨h, List.contains_iff_mem.mp hseen⟩
  · rename_i hseen
    rw [List.contains_iff_mem] at hseen
    have habove : ∃ p ∈ authOf room e, Up authOf room p a := by
      rcases hx.cases_head with rfl | ⟨p, hp, hup⟩
      · exact ⟨a, ha, .refl⟩
      · exact ⟨p, hp, hup.tail ha⟩
    refine ⟨⟨fun y => ?_, fun y hy => ?_, fun y hy => ?_, ?_⟩, List.mem_cons_self⟩
    · rw [List.mem_cons, h.seen_iff, List.mem_append, List.mem_singleton]
      constructor
      · rintro (hy | hy | hy)
        · exact .inr (.inr hy)
        · exact .inl hy
        · exact .inr (.inl hy)
      · rintro (hy | hy | hy)
        · exact .inr (.inl hy)
        · exact .inr (.inr hy)
        · exact .inl hy
    · rcases List.mem_append.mp hy with hy | hy
      · exact h.above y hy
      · rwa [List.mem_singleton.mp hy]
    · rcases List.mem_append.mp hy with hy | hy
      · exact List.mem_cons_of_mem _ (h.next y hy)
      · rw [List.mem_singleton.mp hy]
        exact List.mem_cons_self
    · rw [List.nodup_append]
      refine ⟨h.nodup, by simp, fun y hy z hz => ?_⟩
      rw [List.mem_singleton.mp hz]
      rintro rfl
      exact hseen ((h.seen_iff y).mpr (.inr hy))

theorem finds (h : WalkOk authOf room e w) {x : Bytes} (hx : Up authOf room e x) :
    ∀ {edges : List Bytes}, (∀ a ∈ edges, a ∈ authOf room x) →
      WalkOk authOf room e (edges.foldl Walk.find w) ∧ Grown w (edges.foldl Walk.find w) ∧
        ∀ a ∈ edges, a ∈ (edges.foldl Walk.find w).seen := by
  intro edges
  induction edges generalizing w with
  | nil => exact fun _ => ⟨h, .refl w, fun a ha => by cases ha⟩
  | cons a edges ih =>
    intro hedges
    obtain ⟨h₁, hseen⟩ := h.find hx (hedges a List.mem_cons_self)
    obtain ⟨h₂, hgrown, hall⟩ := ih h₁ fun b hb => hedges b (List.mem_cons_of_mem _ hb)
    refine ⟨h₂, (Grown.find w a).trans hgrown, fun b hb => ?_⟩
    rcases List.mem_cons.mp hb with rfl | hb
    · exact hgrown.seen b hseen
    · exact hall b hb

variable (hedges : ∀ x, Up authOf room e x → edgesAt L (slots L E db room) x = .ok (authOf room x))
include hedges

theorem level (h : WalkOk authOf room e w) : ∀ {frontier : List Bytes}, (∀ x ∈ frontier, Up authOf room e x) →
    ∃ w', walkLevel L E db room w frontier = .ok w' ∧ WalkOk authOf room e w' ∧ Grown w w' ∧
      ∀ x ∈ frontier, ∀ a ∈ authOf room x, a ∈ w'.seen := by
  intro frontier
  induction frontier generalizing w with
  | nil => exact fun _ => ⟨w, rfl, h, .refl w, fun x hx => by cases hx⟩
  | cons x frontier ih =>
    intro hfrontier
    have hx := hfrontier x List.mem_cons_self
    obtain ⟨h₁, hgrown, hseen⟩ := h.finds hx fun a ha => ha
    obtain ⟨w', hlevel, h₂, hgrown', hrest⟩ := ih h₁ fun y hy => hfrontier y (List.mem_cons_of_mem _ hy)
    refine ⟨w', ?_, h₂, hgrown.trans hgrown', fun y hy a ha => ?_⟩
    · have hedge := hedges x hx
      unfold edgesAt at hedge
      unfold walkLevel at hlevel ⊢
      rw [List.foldlM_cons]
      cases hb : slots L E db room (.edges x) with
      | none =>
        rw [hb, Option.elim_none, Except.ok.injEq] at hedge
        rw [← hedge] at hlevel
        exact hlevel
      | some bytes =>
        rw [hb, Option.elim_some] at hedge
        simp only [hedge]
        exact hlevel
    · rcases List.mem_cons.mp hy with rfl | hy
      · exact hgrown'.seen a (hseen a ha)
      · exact hrest y hy a ha

theorem advance (h : WalkOk authOf room e w) (hclosed : ∀ x ∈ w.seen, x ∈ w.next ∨
    ∀ a ∈ authOf room x, a ∈ w.seen) :
    ∃ w', walkLevel L E db room { w with next := [] } w.next = .ok w' ∧ WalkOk authOf room e w' ∧
      (∀ x ∈ w'.seen, x ∈ w'.next ∨ ∀ a ∈ authOf room x, a ∈ w'.seen) ∧
      w'.chain.length = w.chain.length + w'.next.length := by
  have hstart : WalkOk authOf room e { w with next := [] } :=
    ⟨h.seen_iff, h.above, fun x hx => (by cases hx), h.nodup⟩
  obtain ⟨w', hlevel, h', hgrown, hseen⟩ := hstart.level hedges fun x hx => h.up (h.next x hx)
  refine ⟨w', hlevel, h', fun x hx => ?_, hgrown.length⟩
  rcases hgrown.found x hx with hx | hx
  · refine .inr fun a ha => ?_
    rcases hclosed x hx with hnext | hall
    · exact hseen x hnext a ha
    · exact hgrown.seen a (hall a ha)
  · exact .inl hx

omit hedges in
theorem finished (h : WalkOk authOf room e w) (hclosed : ∀ x ∈ w.seen, x ∈ w.next ∨ ∀ a ∈ authOf room x, a ∈ w.seen)
    (hnext : w.next = []) (hacyclic : ∀ p ∈ authOf room e, ¬ Up authOf room p e) (x : Bytes) :
    x ∈ w.chain ↔ ∃ p ∈ authOf room e, Up authOf room p x := by
  have hall : ∀ x ∈ w.seen, ∀ a ∈ authOf room x, a ∈ w.seen := by
    intro x hx
    refine (hclosed x hx).resolve_left fun hmem => ?_
    rw [hnext] at hmem
    cases hmem
  refine ⟨h.above x, ?_⟩
  rintro ⟨p, hp, hup⟩
  have hseen : x ∈ w.seen := by
    induction hup with
    | refl => exact hall e ((h.seen_iff e).mpr (.inl rfl)) p hp
    | tail _ hstep ih => exact hall _ ih _ hstep
  rcases (h.seen_iff x).mp hseen with rfl | hx
  · exact absurd hup (hacyclic p hp)
  · exact hx

omit hedges in
theorem length_le {all : List Bytes} (h : WalkOk authOf room e w)
    (hall : ∀ p ∈ authOf room e, ∀ x, Up authOf room p x → x ∈ all) : w.chain.length ≤ all.length := by
  refine (List.subperm_of_subset h.nodup fun x hx => ?_).length_le
  obtain ⟨p, hp, hup⟩ := h.above x hx
  exact hall p hp x hup

theorem loop {all : List Bytes} (hacyclic : ∀ p ∈ authOf room e, ¬ Up authOf room p e)
    (hall : ∀ p ∈ authOf room e, ∀ x, Up authOf room p x → x ∈ all) (n : Nat) : ∀ {w : Walk},
      WalkOk authOf room e w →
    (∀ x ∈ w.seen, x ∈ w.next ∨ ∀ a ∈ authOf room x, a ∈ w.seen) → all.length + 2 ≤ w.chain.length + n →
    ∃ chain, walkLoop L E db room n w = some (.ok chain) ∧
      ∀ x, x ∈ chain ↔ ∃ p ∈ authOf room e, Up authOf room p x := by
  -- the chain grows with every level but the last, and has no event twice
  induction n with
  | zero =>
    intro w h _ hle
    have hlength := h.length_le hall
    omega
  | succ n ih =>
    intro w h hclosed hle
    by_cases hnext : w.next = []
    · exact ⟨w.chain, by simp [walkLoop, hnext], h.finished hclosed hnext hacyclic⟩
    · obtain ⟨w', hlevel, h', hclosed', hlength⟩ := h.advance hedges hclosed
      have hloop : walkLoop L E db room (n + 1) w = walkLoop L E db room n w' := by
        simp [walkLoop, hnext, hlevel]
      rw [hloop]
      by_cases hnext' : w'.next = []
      · have hbound := h.length_le hall
        obtain ⟨m, rfl⟩ : ∃ m, n = m + 1 := ⟨n - 1, by omega⟩
        exact ⟨w'.chain, by simp [walkLoop, hnext'], h'.finished hclosed' hnext' hacyclic⟩
      · have hpos := List.length_pos_iff.mpr hnext'
        exact ih h' hclosed' (by omega)

end WalkOk

/-! ## Stored closures and walks -/

theorem events_of_shorts : ∀ {shorts : List Nat} {chain : List Bytes},
    shorts.mapM (eventOf L E db room) = .ok chain →
    (shorts.map fun n => slots L E db room (reverseOf n)) = chain.map some
  | [], chain, h => by
    cases h
    rfl
  | n :: shorts, chain, h => by
    rw [List.mapM_cons] at h
    obtain ⟨x, hx, h⟩ := ok_of_bind h
    obtain ⟨rest, hrest, h⟩ := ok_of_bind h
    cases h
    rw [List.map_cons, List.map_cons, events_of_shorts hrest]
    unfold eventOf at hx
    cases hr : slots L E db room (reverseOf n) with
    | none =>
      rw [hr] at hx
      cases hx
    | some y =>
      rw [hr] at hx
      cases hx
      rfl

theorem persistedAuthChain_eq {chain : List Bytes} (h : persistedAuthChain L E db room e = .ok (some chain)) :
    ∃ n bytes b, shortOf (slots L E db room) e = .ok (some n) ∧ slots L E db room (closureOf n) = some bytes ∧
      L.decodeBitmap bytes = .ok b ∧
      (b.elements.map fun n => slots L E db room (reverseOf n)) = chain.map some := by
  obtain ⟨short, hshort, h⟩ := ok_of_bind h
  cases short with
  | none => cases h
  | some n =>
    simp only at h
    cases hb : slots L E db room (closureOf n) with
    | none =>
      rw [hb] at h
      cases h
    | some bytes =>
      rw [hb] at h
      obtain ⟨b, hdecode, h⟩ := ok_of_bind h
      obtain ⟨ids, hids, h⟩ := ok_of_bind h
      cases h
      exact ⟨n, bytes, b, hshort, hb, decodeClosure_eq hdecode, events_of_shorts hids⟩

theorem Exact.chain {b : Bitmap} {c : Nat} (h : Exact L authOf (slots L E db room) room e b)
    (hvalid : Valid (slots L E db room) c) (hclosures : Closures L authOf (slots L E db room) room)
    {chain : List Bytes}
    (hchain : (b.elements.map fun n => slots L E db room (reverseOf n)) = chain.map some) :
    chain.Nodup ∧ ∀ x, x ∈ chain ↔ ∃ p ∈ authOf room e, Up authOf room p x := by
  have hshort : ∀ n, n ∈ b → ∃ a, slots L E db room (reverseOf n) = some a ∧
      shortOf (slots L E db room) a = .ok (some n) ∧ ∃ p ∈ authOf room e, Up authOf room p a := by
    intro n hn
    obtain ⟨p, hp, a, hup, ha⟩ := (h.covers.mem_iff n).mp hn
    exact ⟨a, (hvalid.short ha).2.2, ha, p, hp, hup⟩
  have hmem : ∀ x, x ∈ chain ↔ ∃ n, n ∈ b ∧ slots L E db room (reverseOf n) = some x := by
    intro x
    have hsome : x ∈ chain ↔ some x ∈ chain.map some := by simp
    rw [hsome, ← hchain, List.mem_map]
    rfl
  constructor
  · refine List.Nodup.of_map some ?_
    rw [← hchain]
    refine b.nodup.map_on fun n hn m hm heq => ?_
    obtain ⟨a, ha, hn', -⟩ := hshort n hn
    obtain ⟨a', ha', hm', -⟩ := hshort m hm
    rw [ha, ha', Option.some.injEq] at heq
    rw [heq, hm', Except.ok.injEq, Option.some.injEq] at hn'
    exact hn'.symm
  · intro x
    rw [hmem]
    constructor
    · rintro ⟨n, hn, hx⟩
      obtain ⟨a, ha, -, habove⟩ := hshort n hn
      rw [ha, Option.some.injEq] at hx
      exact hx ▸ habove
    · rintro ⟨p, hp, hup⟩
      obtain ⟨n, hn, -⟩ := hclosures.up (h.covers.closed p hp) hup
      exact ⟨n, (h.covers.mem_iff n).mpr ⟨p, hp, x, hup, hn⟩, (hvalid.short hn).2.2⟩

/-- Whatever the order of the writes, a stored closure that is returned has no event
twice, not the event itself, and just those that a walk of the edges finds. -/
theorem persisted_chain_exact {s : State E} (hempty : ∀ r, E.get db r = none)
    (hrun : Reaches (step L) (SameAuth authOf) ⟨db, []⟩ s) {chain : List Bytes}
    (h : persistedAuthChain L E s.db room e = .ok (some chain)) :
    chain.Nodup ∧ e ∉ chain ∧ ∃ n₀, ∀ n, n₀ ≤ n → ∃ walked, walkAuthChain L E n s.db room e = some (.ok walked) ∧
      ∀ x, x ∈ chain ↔ x ∈ walked := by
  have hgood : Good L authOf s := hrun.invariant (empty_good hempty) fun _ _ _ h hok hs => step_good h hok hs
  have hclosures := hgood.closures room
  obtain ⟨c, hvalid⟩ := hgood.sound.db room
  obtain ⟨n, bytes, b, hn, hbytes, hb, hchain⟩ := persistedAuthChain_eq h
  obtain ⟨b', hb', hexact⟩ := hclosures.exact e n bytes hn hbytes
  rw [hb, Except.ok.injEq] at hb'
  subst hb'
  obtain ⟨hnodup, hmem⟩ := hexact.chain hvalid hclosures hchain
  have hclosure : HasClosure (slots L E s.db room) e := ⟨n, hn, by rw [hbytes]; rfl⟩
  -- all events above `e` have a closure, so their edges are stored
  have hedges : ∀ x, Up authOf room e x → edgesAt L (slots L E s.db room) x = .ok (authOf room x) := by
    intro x hup
    obtain ⟨_, hx⟩ := hclosures.hasClosure (hclosures.up hclosure hup)
    exact hx.written
  refine ⟨hnodup, fun he => ?_, chain.length + 2, fun n hle => ?_⟩
  · obtain ⟨p, hp, hup⟩ := (hmem e).mp he
    exact hexact.acyclic p hp hup
  · have hstart : WalkOk authOf room e ⟨[e], [], [e]⟩ :=
      ⟨fun x => by simp, fun x hx => (by cases hx), fun x hx => hx, List.nodup_nil⟩
    obtain ⟨walked, hwalk, hwalked⟩ :=
      WalkOk.loop hedges hexact.acyclic (fun p hp x hup => (hmem x).mpr ⟨p, hp, hup⟩) n
      hstart (fun x hx => .inl hx) (by simpa using hle)
    exact ⟨walked, hwalk, fun x => (hmem x).trans (hwalked x).symm⟩

end

/-! ## Two events -/

instance {Id : Type} [DecidableEq Id] {E : Engine Id} (authOf : Bytes → Bytes → List Bytes)
    (a : Action) (s : State E) :
    Decidable (SameAuth authOf a s) :=
  match a with
  | .write item => inferInstanceAs (Decidable (item.authEvents = authOf item.room item.eventId))
  | .transact _ => inferInstanceAs (Decidable False)
  | .run _ _ => inferInstanceAs (Decidable True)

/-- The second event has the first as its auth event. -/
def plainAuth (_ e : Bytes) : List Bytes := if e = [98] then [[97]] else []

/-- Two writers at once: the second is overtaken, and finds the closure of the first when it tries again. -/
theorem overtaken_write_has_closure : ∃ s : PlainState,
    Reaches (step plainLayout) (SameAuth plainAuth) ⟨([] : Log _), []⟩ s ∧
    persistedAuthChain plainLayout (logged (String × Bytes)) s.db [33] [98] = .ok (some [[97]]) ∧
    ∃ n₀, ∀ n, n₀ ≤ n → ∃ walked,
      walkAuthChain plainLayout (logged (String × Bytes)) n s.db [33] [98] = some (.ok walked) ∧
      ∀ x, x ∈ [[97]] ↔ x ∈ walked := by
  have hrun : (runWhile plainStep (SameAuth plainAuth)
      ([Action.write (plainItem [33] [97] [] (by decide) (by decide)),
        Action.write (plainItem [33] [98] [[97]] (by decide) (by decide))] ++ List.replicate 8
          (Action.run 1 none) ++
        List.replicate 7 (Action.run 0 none) ++ List.replicate 10 (Action.run 1 none))
      (⟨([] : Log _), []⟩ : PlainState)).map (fun s =>
        persistedAuthChain plainLayout (logged (String × Bytes)) s.db [33] [98]) = some (.ok (some [[97]])) := by
    decide
  obtain ⟨s, hs, hv⟩ := Option.map_eq_some_iff.mp hrun
  have hreach := Reaches.of_runWhile _ .init hs
  exact ⟨s, hreach, hv, (persisted_chain_exact (fun _ => rfl) hreach hv).2.2⟩

end Congruent.EventWrites
