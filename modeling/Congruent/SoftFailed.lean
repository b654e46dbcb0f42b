import Congruent.TimelineRoots

/-!
# Soft-failed events are invisible

An event that is soft-failed gets a root and a mark. No table that is derived from
the room's events changes, and while the mark is there no delivery appends it, in
whatever order the steps of deliveries are taken, unless one is under way when the
mark is written: the mark is read before the room's lock is taken, and not again.
-/

namespace Congruent

open H
open Call (Ensures Keeps Triple Leaves)

/-- The tables derived from the events of the rooms are the same. -/
structure SameTables (t t' : Ledger) : Prop where
  roomRoot : t'.server.roomRoot = t.server.roomRoot
  pduleaves : t'.server.pduleaves = t.server.pduleaves
  referenced : t'.server.referenced = t.server.referenced
  timeline : t'.roomPducountEventid = t.roomPducountEventid
  topological : t'.topologicalorder = t.topologicalorder
  timestamps : t'.timestamps = t.timestamps
  cache : t'.cache = t.cache

namespace Ledger

section
variable {plat : Platform} {env : Env} {room : RoomId} {t t' : Ledger} {d : Delivery} {A : Type}

/-! ## The call -/

/-- Nothing has happened to the event yet. -/
def Unjudged (d : Delivery) (t t' : Ledger) : Prop := SameTables t t' ∧ t'.server.softFailed d.id = false

theorem checks_unjudged {p : H A} (h : ∀ s, Keeps Unmoved p s) : Leaves (Unjudged d t) (onServer p) := by
  refine Leaves.zoom h fun t₁ s' hr ht => ?_
  have hu := Unmoved.of_path hr
  obtain ⟨hs, hm⟩ := ht
  refine ⟨⟨hu.roomRoot.trans hs.roomRoot, hu.pduleaves.trans hs.pduleaves, hu.referenced.trans hs.referenced,
    hs.timeline, hs.topological, hs.timestamps, hs.cache⟩, ?_⟩
  show s'.softFailed d.id = false
  rw [hu.softFailed]
  exact hm

theorem settle_unjudged (j : Judged) :
    Triple (Unjudged d t) (onServer (d.settle plat room j))
      (fun r t' => Unjudged d t t' ∧ (r.isRight = true → t'.server.getPduId d.id = none)) (Unjudged d t) := by
  intro t₁ ht
  have hleaves := checks_unjudged (settle_keeps plat room d j) t₁ ht
  refine ⟨fun r t₂ hp => ⟨hleaves.1 r t₂ hp, fun hr => ?_⟩, hleaves.2⟩
  obtain ⟨st, rfl⟩ := Sum.isRight_iff.mp hr
  rw [onServer, Call.exec_zoom] at hp
  obtain ⟨hres, rfl⟩ := Prod.mk.inj hp
  have hu : Unmoved t₁.server ((d.settle plat room j).exec t₁.server).2 :=
    Unmoved.of_path (settle_keeps plat room d j t₁.server).solo.1
  have hnone : t₁.server.getPduId d.id = none := settle_inr (Prod.ext hres rfl)
  show ((d.settle plat room j).exec t₁.server).2.getPduId d.id = none
  cases hpos : ((d.settle plat room j).exec t₁.server).2.getPduId d.id with
  | none => rfl
  | some n =>
    have hsome := hu.positions d.id (by rw [hpos]; rfl)
    rw [hnone] at hsome
    cases hsome

theorem accept_unmarked (recovered : Bool) (st : Settled) :
    Leaves (fun t' => t'.server.softFailed d.id = false) (accept plat env room d recovered st) := by
  refine Leaves.of_keeps (fun t t' => t'.server.softFailed = t.server.softFailed) (fun t => ?_) fun t t' ht hf => ?_
  · exact accept_keeps (fun _ _ => rfl) (fun _ _ h => h.softFailed) (fun _ _ _ _ _ => rfl) rfl recovered st
  · rwa [ht]

theorem softFail_same (recovered : Bool) (st : Settled) :
    Leaves (fun t' => SameTables t t' ∧ t'.server.getPduId d.id = none)
      (softFail plat env room d recovered st) := by
  refine Leaves.of_keeps (fun t t' => SameTables t t' ∧ t'.server.eventidMetadata = t.server.eventidMetadata)
    (fun t => ?_) fun t₁ t₂ ht hs => ?_
  · exact softFail_keeps (fun t s h => ⟨⟨h.roomRoot, h.pduleaves, h.referenced, rfl, rfl, rfl, rfl⟩, h.metadata⟩) _
      _
  · obtain ⟨h, hm⟩ := ht
    obtain ⟨hs, hnone⟩ := hs
    refine ⟨⟨h.roomRoot.trans hs.roomRoot, h.pduleaves.trans hs.pduleaves, h.referenced.trans hs.referenced,
      h.timeline.trans hs.timeline, h.topological.trans hs.topological, h.timestamps.trans hs.timestamps,
      h.cache.trans hs.cache⟩, ?_⟩
    rw [Server.getPduId, hm]
    exact hnone

variable (plat env room) in
theorem upgrade_marked : Triple (Unjudged d t) (upgradeOutlierToTimelinePdu plat env room d)
    (fun _ t' => t'.server.softFailed d.id = true → SameTables t t' ∧ t'.server.getPduId d.id = none)
    fun t' => t'.server.softFailed d.id = true → SameTables t t' ∧ t'.server.getPduId d.id = none := by
  have habsurd : ∀ t', Unjudged d t t' →
      t'.server.softFailed d.id = true → SameTables t t' ∧ t'.server.getPduId d.id = none := by
    intro t' ht hm
    rw [ht.2] at hm
    cases hm
  unfold upgradeOutlierToTimelinePdu
  refine ((checks_unjudged (judge_keeps plat room d)).mono (fun _ h => h) (fun _ _ h => h) habsurd).bind fun r => ?_
  split
  · exact Triple.pure _ habsurd
  · rename_i j
    refine ((settle_unjudged j).mono (fun _ h => h) (fun _ _ h => h) habsurd).bind fun r => ?_
    split
    · exact Triple.pure _ fun t' h => habsurd t' h.1
    · rename_i st
      unfold commit
      split
      · exact (softFail_same _ _).mono (fun _ h => ⟨h.1.1, h.2 rfl⟩) (fun _ _ h _ => h) fun _ h _ => h
      · refine (accept_unmarked _ _).mono (fun _ h => h.1.2) (fun _ t' h hm => ?_) fun t' h hm => ?_
        · rw [h] at hm
          cases hm
        · rw [h] at hm
          cases hm

/-! ## Under a mark -/

/-- On the event tables: a mark stays, and its event gets no position. -/
def SealedServer (id : EventId) (s s' : Server) : Prop :=
  (∀ m ∈ s.log, m ∈ s'.log) ∧
    (s.softFailed id = true → s'.softFailed id = true ∧ (s.getPduId id = none → s'.getPduId id = none))

/-- A mark stays, and its event is not appended. -/
def Sealed (id : EventId) (t t' : Ledger) : Prop :=
  SealedServer id t.server t'.server ∧ (t.server.softFailed id = true →
    ∀ r n, t'.roomPducountEventid r n = some id → t.roomPducountEventid r n = some id)

theorem sealed_of_unmoved {id : EventId} {s s' : Server} (h : Unmoved s s') : SealedServer id s s' := by
  refine ⟨h.log, fun hm => ⟨by rw [h.softFailed, hm], fun hnone => ?_⟩⟩
  cases hpos : s'.getPduId id with
  | none => rfl
  | some n =>
    have hsome := h.positions id (by rw [hpos]; rfl)
    rw [hnone] at hsome
    cases hsome

instance (id : EventId) : Grows (SealedServer id) := ⟨fun h hm => h.1 _ hm⟩

instance (id : EventId) : Admits plat (SealedServer id) := ⟨fun w hq _ => sealed_of_unmoved (w.apply_unmoved hq)⟩

def Logs (s s' : Server) : Prop := ∀ m ∈ s.log, m ∈ s'.log

instance : Grows Logs := ⟨fun h hm => h _ hm⟩

instance : Admits plat Logs := ⟨fun w hq _ => (w.apply_unmoved hq).log⟩

section
variable {V : Server → Server → Prop} [Grows V] [Admits plat V] {T : Ledger → Ledger → Prop}

theorem upgrade_keeps (hproj : ∀ t t', T t t' → V t.server t'.server)
    (hlift : ∀ (t : Ledger) (s : Server), V t.server s → T t { t with server := s })
    (hcommit : ∀ recovered st t, Keeps T (commit plat env room d recovered st) t) (t : Ledger) :
    Keeps T (upgradeOutlierToTimelinePdu plat env room d) t := by
  have hserver : ∀ {A : Type} {p : H A} {Q : A → Server → Prop}, Ensures V Q p t.server →
      Ensures T (fun a t => Q a t.server) (onServer p) t := by
    intro A p Q h
    show Ensures T (fun a t => Q a (serverPart.get t)) (Call.zoom serverPart p) t
    exact Ensures.zoom (fun t₁ t₂ ht => .single (hproj t₁ t₂ ht)) (fun t₁ s' hs => hlift t₁ s' hs) h
  unfold upgradeOutlierToTimelinePdu
  refine (hserver (judge_keeps plat room d t.server)).andThen fun r => ?_
  split
  · exact Ensures.pure fun _ _ => trivial
  · refine (hserver (settle_keeps plat room d _ t.server)).andThen fun r => ?_
    split
    · exact Ensures.pure fun _ _ => trivial
    · exact hcommit _ _ t

end

theorem Logs.path (h : Relation.ReflTransGen (fun t t' : Ledger => Logs t.server t'.server) t t') :
    Logs t.server t'.server := by
  induction h with
  | refl => exact fun _ h => h
  | tail _ hst ih => exact fun m hm => hst m (ih m hm)

theorem upgrade_logs (t : Ledger) :
    Keeps (fun t t' => Logs t.server t'.server) (upgradeOutlierToTimelinePdu plat env room d) t := by
  refine upgrade_keeps (V := Logs) (fun _ _ h => h) (fun _ _ h => h) (fun recovered st t => ?_) t
  unfold commit
  split
  · exact softFail_keeps (fun t s h m hm => by rw [h.log]; exact hm) _ _
  · exact accept_keeps (fun _ _ _ h => h) (fun _ _ h => h.log)
      (fun _ _ _ _ _ _ h => List.mem_cons_of_mem _ h) rfl _ _

theorem upgrade_other {id : EventId} (hne : d.id ≠ id) (t : Ledger) :
    Keeps (Sealed id) (upgradeOutlierToTimelinePdu plat env room d) t := by
  refine upgrade_keeps (V := SealedServer id) (fun _ _ h => h.1) (fun _ _ h => ⟨h, fun _ _ _ h => h⟩)
    (fun recovered st t => ?_) t
  unfold commit
  split
  · refine softFail_keeps (fun t s h => ⟨⟨fun m hm => ?_, fun hm => ⟨h.softFailed id hm, fun hnone => ?_⟩⟩,
      fun _ _ _ h => h⟩) _ _
    · rw [h.log]
      exact hm
    · rw [Server.getPduId, h.metadata]
      exact hnone
  · refine accept_keeps (fun t c => ⟨⟨fun _ h => h, fun h => ⟨h, fun h => h⟩⟩, fun _ _ _ h => h⟩) (fun t s h => ?_)
      (fun t room pdu json hpdu => ?_) rfl recovered st
    · refine ⟨⟨h.log, fun hm => ⟨?_, fun hnone => ?_⟩⟩, fun _ _ _ h => h⟩
      · rw [h.softFailed]
        exact hm
      · rw [h.positions id hne.symm]
        exact hnone
    · have hid : id ≠ pdu.eventId := by
        rw [hpdu]
        exact hne.symm
      refine ⟨⟨fun _ h => List.mem_cons_of_mem _ h, fun hm => ⟨hm, fun hnone => ?_⟩⟩, fun _ r n h => ?_⟩
      · simpa [insertRows, Server.storePdu, Server.getPduId, Function.update_of_ne hid] using hnone
      · simp only [insertRows] at h
        split at h
        · exact absurd (Option.some.inj h).symm hid
        · split at h
          · cases h
          · exact h

theorem Sealed.path {id : EventId} (h : Relation.ReflTransGen (Sealed id) t t')
    (hm : t.server.softFailed id = true) : t'.server.softFailed id = true ∧
      (t.server.getPduId id = none → t'.server.getPduId id = none) ∧
      ∀ r n, t'.roomPducountEventid r n = some id → t.roomPducountEventid r n = some id := by
  induction h with
  | refl => exact ⟨hm, fun h => h, fun _ _ h => h⟩
  | tail _ hst ih =>
    obtain ⟨hm', hpos, hrows⟩ := ih
    obtain ⟨hserver, hst⟩ := hst
    exact ⟨(hserver.2 hm').1, fun h => (hserver.2 hm').2 (hpos h), fun r n h => hrows r n (hst hm' r n h)⟩

variable (plat env room d) in
/-- A delivery reads the position of the event first, and next its mark: one that reads the
mark appends nothing. -/
theorem upgrade_reads : ∃ rest : Option Nat → L (Option Nat × Bool),
    upgradeOutlierToTimelinePdu plat env room d = (Call.read fun t => t.server.getPduId d.id) >>= rest ∧
      ∀ position t, t.server.softFailed d.id = true → Keeps (Sealed d.id) (rest position) t := by
  unfold upgradeOutlierToTimelinePdu Delivery.judge
  rw [onServer_read_bind, bind_assoc]
  refine ⟨_, rfl, fun position t hm => ?_⟩
  cases position with
  | some n => exact fun _ _ _ _ _ => trivial
  | none =>
    simp only
    rw [onServer_read_bind, bind_assoc]
    refine (Ensures.act (Q := fun failed _ => failed = true) fun t' hr => ⟨.refl, fun failed hf _ _ => ?_⟩).bind ?_
    · cases hf
      exact (Sealed.path hr hm).1
    · rintro failed t' _ rfl
      exact fun _ _ _ _ _ => trivial

end

end Ledger

/-! ## Runs -/

def LedgerAction.prog (plat : Platform) : LedgerAction → Prog Ledger (Except HErr (Option Nat × Bool))
  | .deliver room env d => (Ledger.upgradeOutlierToTimelinePdu plat env room d).run
  | .write w => .act fun t => (.ok (none, false), (t.step plat (.write w)).getD t)

/-- The actions of a server, started together and taking their steps in the order of the schedule. -/
def runActions (plat : Platform) (actions : List LedgerAction) (t : Ledger) (is : List Nat) :
    List (Prog Ledger (Except HErr (Option Nat × Bool))) × Ledger :=
  Prog.schedule is (actions.map (LedgerAction.prog plat)) t

def LedgerAction.delivers (id : EventId) : LedgerAction → Bool
  | .deliver _ _ d => d.id = id
  | .write _ => false

/-- No delivery of an event is between its check of the mark, which is its second step, and
its end when the mark of the event is written. -/
def NoneUnderWay (plat : Platform) (id : EventId) (actions : List LedgerAction) (t : Ledger)
    (is : List Nat) : Prop :=
  ∀ before i, before ++ [i] <+: is → (runActions plat actions t before).2.server.softFailed id = false →
    (runActions plat actions t (before ++ [i])).2.server.softFailed id = true →
    ∀ j a, actions[j]? = some a → a.delivers id = true → 2 ≤ (before ++ [i]).count j →
      ((runActions plat actions t (before ++ [i])).1[j]?).any Prog.done = true

section
variable {plat : Platform} {id : EventId}

abbrev KeepsMark (id : EventId) (p : Prog Ledger (Except HErr (Option Nat × Bool))) (t : Ledger) : Prop :=
  Prog.Safe (fun _ => True) (Relation.ReflTransGen (Ledger.Sealed id)) (fun _ _ => True) p t

theorem keepsMark_done {p : Prog Ledger (Except HErr (Option Nat × Bool))} (h : p.done = true) (t : Ledger) :
    KeepsMark id p t := by
  cases p with
  | ret a => exact fun _ _ _ => trivial
  | op f k => cases h

theorem LedgerAction.prog_logs (a : LedgerAction) (t : Ledger) :
    Prog.Safe (fun _ => True) (Relation.ReflTransGen fun t t' => Ledger.Logs t.server t'.server) (fun _ _ => True)
      (a.prog plat) t := by
  cases a with
  | deliver room env d => exact Prog.Guarded.mono (fun _ _ _ _ => trivial) (Ledger.upgrade_logs t)
  | write w =>
    refine fun t' _ _ => ⟨trivial, .single ?_, fun _ _ _ => trivial⟩
    simp only [Ledger.step]
    split
    · rename_i hq
      exact (w.apply_unmoved hq).log
    · exact fun _ h => h

theorem LedgerAction.prog_other (a : LedgerAction) (h : a.delivers id = false) (t : Ledger) :
    KeepsMark id (a.prog plat) t := by
  cases a with
  | deliver room env d =>
    exact Prog.Guarded.mono (fun _ _ _ _ => trivial) (Ledger.upgrade_other (of_decide_eq_false h) t)
  | write w =>
    refine fun t' _ _ => ⟨trivial, .single ?_, fun _ _ _ => trivial⟩
    simp only [Ledger.step]
    split
    · rename_i hq
      exact ⟨Ledger.sealed_of_unmoved (w.apply_unmoved hq), fun _ _ _ h => h⟩
    · exact ⟨⟨fun _ h => h, fun h => ⟨h, fun h => h⟩⟩, fun _ _ _ h => h⟩

theorem LedgerAction.prog_unread {a : LedgerAction} (ha : a.delivers id = true) {n : Nat} (hn : n < 2)
    {q : Prog Ledger (Except HErr (Option Nat × Bool))} (hq : Prog.Remainder n (a.prog plat) q) {t : Ledger}
    (hm : t.server.softFailed id = true) : KeepsMark id q t := by
  cases a with
  | write w => cases ha
  | deliver room env d =>
    obtain rfl : d.id = id := of_decide_eq_true ha
    match n, hn with
    | 0, _ =>
      obtain rfl : q = _ := hq
      obtain ⟨rest, hprog, hrest⟩ := Ledger.upgrade_reads plat env room d
      show KeepsMark d.id (Ledger.upgradeOutlierToTimelinePdu plat env room d).run t
      rw [hprog]
      have hkeeps : Keeps (Ledger.Sealed d.id) ((Call.read fun t => t.server.getPduId d.id) >>= rest) t :=
        Ensures.read.bind fun position t' hr _ => hrest position t' (Ledger.Sealed.path hr hm).1
      exact Prog.Guarded.mono (fun _ _ _ _ => trivial) hkeeps
    | 1, _ =>
      obtain ⟨rest, hprog, hrest⟩ := Ledger.upgrade_reads plat env room d
      have hq : Prog.Remainder 1 (Ledger.upgradeOutlierToTimelinePdu plat env room d).run q := hq
      rw [hprog] at hq
      obtain ⟨t₀, rfl⟩ := hq
      exact Prog.Guarded.mono (fun _ _ _ _ => trivial) (hrest (t₀.server.getPduId d.id) t hm)

variable {actions : List LedgerAction} {t : Ledger} {is : List Nat}

theorem runActions_logs (before : List Nat) :
    Prog.PoolSafe (fun _ => True) (Relation.ReflTransGen fun t t' => Ledger.Logs t.server t'.server)
      (fun (_ : LedgerAction) _ _ => True) actions (runActions plat actions t before).1
      (runActions plat actions t before).2 := by
  have hpool : Prog.PoolSafe (fun _ => True) (Relation.ReflTransGen fun t t' => Ledger.Logs t.server t'.server)
      (fun (_ : LedgerAction) _ _ => True) actions (actions.map (LedgerAction.prog plat)) t :=
    List.forall₂_map_right_iff.mpr (List.forall₂_same.mpr fun a _ => a.prog_logs t)
  exact (Prog.schedule_safe Call.steps_refl Call.steps_trans before trivial hpool).2.2

theorem runActions_snoc (before : List Nat) (i : Nat) :
    runActions plat actions t (before ++ [i]) =
      Prog.stepAt i (runActions plat actions t before).1 (runActions plat actions t before).2 :=
  Prog.schedule_append [i] before _ _

theorem runActions_sealed (before : List Nat) (i : Nat)
    (h : ∀ a p, actions[i]? = some a → (runActions plat actions t before).1[i]? = some p →
      (a.delivers id = true → (runActions plat actions t before).2.server.softFailed id = true) →
      KeepsMark id p (runActions plat actions t before).2) :
    Relation.ReflTransGen (Ledger.Sealed id) (runActions plat actions t before).2
      (runActions plat actions t (before ++ [i])).2 := by
  have hlogs := @runActions_logs plat actions t before
  rw [runActions_snoc]
  generalize runActions plat actions t before = r at h hlogs ⊢
  obtain ⟨ps, u⟩ := r
  rcases Prog.stepAt_cases i ps u with heq | ⟨X, f, k, hp, heq⟩
  · rw [heq]
  · rw [heq]
    obtain ⟨hlt, hpi⟩ := List.getElem?_eq_some_iff.mp hp
    have hlen := hlogs.length_eq
    have hi : i < actions.length := by
      simp only at hlen
      omega
    have ha : actions[i]? = some actions[i] := List.getElem?_eq_getElem hi
    by_cases hm : u.server.softFailed id = true
    · exact (h _ _ ha hp (fun _ => hm) u .refl trivial).2.1
    · -- before the mark is there a step only has to keep the log
      have hsafe := (List.forall₂_iff_get.mp hlogs).2 i hi hlt
      rw [List.get_eq_getElem, List.get_eq_getElem, hpi] at hsafe
      have hlog := Ledger.Logs.path (hsafe u .refl trivial).2.1
      exact .single ⟨⟨hlog, fun h => absurd h hm⟩, fun h => absurd h hm⟩

/-- In a run in which no delivery is under way when the mark is written, what is left of
each action keeps the mark once it is there, and of the other actions before too. -/
theorem runActions_keepsMark (hquiet : NoneUnderWay plat id actions t is) :
    ∀ before, before <+: is → ∀ (j : Nat) (a : LedgerAction) p, actions[j]? = some a →
      (runActions plat actions t before).1[j]? = some p →
      (a.delivers id = true → (runActions plat actions t before).2.server.softFailed id = true) →
      KeepsMark id p (runActions plat actions t before).2 := by
  intro before
  induction before using List.reverseRecOn with
  | nil =>
    intro _ j a p ha hp hm
    have hp : p = a.prog plat := by
      rw [runActions, Prog.schedule, List.getElem?_map, ha] at hp
      exact (Option.some.inj hp).symm
    cases hd : a.delivers id with
    | false => exact hp ▸ a.prog_other hd _
    | true => exact a.prog_unread hd Nat.two_pos hp (hm hd)
  | append_singleton before i ih =>
    intro hpre j a p ha hp hm
    have hih := ih ((List.prefix_append _ _).trans hpre)
    have hprog : (actions.map (LedgerAction.prog plat))[j]? = some (a.prog plat) := by
      rw [List.getElem?_map, ha]
      rfl
    by_cases hfresh : a.delivers id = true ∧ (runActions plat actions t before).2.server.softFailed id = false
    · -- the step has written the mark
      obtain ⟨hd, hun⟩ := hfresh
      by_cases hcount : 2 ≤ (before ++ [i]).count j
      · have hdone := hquiet before i hpre hun (hm hd) j a ha hd hcount
        rw [hp] at hdone
        exact keepsMark_done hdone _
      · obtain ⟨q, hq, hrem⟩ := Prog.schedule_remainder (before ++ [i]) (s := t) hprog
        have hq : (runActions plat actions t (before ++ [i])).1[j]? = some q := hq
        rw [hp] at hq
        cases hq
        exact a.prog_unread hd (by omega) hrem (hm hd)
    · obtain ⟨p₀, hp₀, -⟩ := Prog.schedule_remainder before (s := t) hprog
      have hp₀ : (runActions plat actions t before).1[j]? = some p₀ := hp₀
      have hsafe := hih j a p₀ ha hp₀ fun hd => by simpa [hd] using hfresh
      have hpath := runActions_sealed before i fun a p => hih i a p
      rw [runActions_snoc] at hp hpath ⊢
      generalize runActions plat actions t before = r at hp hp₀ hpath hsafe ⊢
      obtain ⟨ps, u⟩ := r
      rcases Prog.stepAt_cases i ps u with heq | ⟨X, f, k, hpi, heq⟩
      · rw [heq] at hp ⊢
        obtain rfl := Option.some.inj (hp₀.symm.trans hp)
        exact hsafe
      · rw [heq] at hp hpath ⊢
        by_cases hij : i = j
        · subst hij
          obtain rfl := Option.some.inj (hp₀.symm.trans hpi)
          rw [List.getElem?_set_self (List.getElem?_eq_some_iff.mp hpi).1] at hp
          obtain rfl := Option.some.inj hp
          exact (hsafe u .refl trivial).2.2
        · rw [List.getElem?_set_ne hij] at hp
          obtain rfl := Option.some.inj (hp₀.symm.trans hp)
          exact hsafe.rely Call.steps_trans hpath

end

/-- A call that soft-fails an event changes no table derived from the room's events. And in
a run of deliveries and other writes in which no delivery of an event is under way when its
mark is written, the mark stays and nothing appends the event while it is there. -/
theorem soft_failed_invisible (plat : Platform) :
    (∀ (env : Env) (room : RoomId) (d : Delivery) (t : Ledger), t.server.softFailed d.id = false →
      ((Ledger.upgradeOutlierToTimelinePdu plat env room d).exec t).2.server.softFailed d.id = true →
      SameTables t ((Ledger.upgradeOutlierToTimelinePdu plat env room d).exec t).2 ∧
        ((Ledger.upgradeOutlierToTimelinePdu plat env room d).exec t).2.server.getPduId d.id = none) ∧
    ∀ (id : EventId) (actions : List LedgerAction) (t : Ledger) (is : List Nat),
      NoneUnderWay plat id actions t is → ∀ before, before <+: is →
        let u := (runActions plat actions t before).2
        let u' := (runActions plat actions t is).2
        u.server.softFailed id = true → u'.server.softFailed id = true ∧
          (u.server.getPduId id = none → u'.server.getPduId id = none) ∧
          ∀ r n, u'.roomPducountEventid r n = some id → u.roomPducountEventid r n = some id := by
  constructor
  · intro env room d t hbefore hafter
    have hsame : Ledger.Unjudged d t t := ⟨⟨rfl, rfl, rfl, rfl, rfl, rfl, rfl⟩, hbefore⟩
    have hcall := Ledger.upgrade_marked plat env room t hsame
    generalize hrun : (Ledger.upgradeOutlierToTimelinePdu plat env room d).exec t = r at hcall hafter
    obtain ⟨r, t'⟩ := r
    cases r with
    | ok a => exact hcall.1 a t' rfl hafter
    | error e => exact hcall.2 e t' rfl hafter
  · rintro id actions t is hquiet before ⟨after, rfl⟩ u u' hm
    have hpool : Prog.PoolSafe (fun _ => True) (Relation.ReflTransGen (Ledger.Sealed id))
        (fun (_ : LedgerAction) _ _ => True) actions (runActions plat actions t before).1 u := by
      have hlen := (@runActions_logs plat actions t before).length_eq
      refine List.forall₂_iff_get.mpr ⟨hlen, fun j hj hj' => ?_⟩
      exact runActions_keepsMark hquiet before (List.prefix_append _ _) j _ _ (List.getElem?_eq_getElem hj)
        (List.getElem?_eq_getElem hj') fun _ => hm
    have hpath := (Prog.schedule_safe Call.steps_refl Call.steps_trans after trivial hpool).2.1
    have hu' : u' = (Prog.schedule after (runActions plat actions t before).1 u).2 :=
      congrArg Prod.snd (Prog.schedule_append after before _ t)
    rw [hu']
    exact Ledger.Sealed.path hpath hm

def Ledger.departed : Ledger :=
  let leave := wireEvent "l" "m.room.member" "@u:b" (some "@u:b") [("membership", .str "leave")] ["$c", "$j"] ["$j"]
  let root := ((∅ : Root).insert (.roomCreate, "") "$c").insert (.roomMember, "@u:b") "$l"
  { Ledger.plain with
    server := { Server.withOutliers with
      eventidPdu := fun id => if id = "$l" then some leave else Server.withOutliers.eventidPdu id
      eventidMetadata := fun id => if id = "$l" then some ⟨false, some 2⟩ else
        Server.withOutliers.eventidMetadata id
      pduleaves := fun room => if room = "!r:a" then ["$l"] else []
      roomRoot := fun room => if room = "!r:a" then some root else none
      count := 3 } }

/-- A message of the creator from before, delivered once by itself and once as what another
event cites. -/
def twoDeliveries : List LedgerAction :=
  [.deliver "!r:a" .steady (storedDelivery "$m"),
    .deliver "!r:a" .steady { storedDelivery "$m" with isTimelineEvent := false }]

/-- The second delivery starts after the first has ended. -/
theorem departed_invisible :
    let is := List.replicate 15 0 ++ [1, 1]
    NoneUnderWay .union "$m" twoDeliveries .departed is ∧
      (runActions .union twoDeliveries .departed is).2.server.getPduId "$m" = none := by
  intro is
  have hwritten : ∀ n < 17, (runActions .union twoDeliveries .departed (is.take n)).2.server.softFailed
    "$m" = false →
      (runActions .union twoDeliveries .departed (is.take (n + 1))).2.server.softFailed "$m" = true →
      ∀ j < 2, 2 ≤ (is.take (n + 1)).count j →
        ((runActions .union twoDeliveries .departed (is.take (n + 1))).1[j]?).any Prog.done = true := by decide
  have hquiet : NoneUnderWay .union "$m" twoDeliveries .departed is := by
    intro before i hpre hun hm j a ha _ hcount
    have hafter : before ++ [i] = is.take (before.length + 1) := by
      simpa using (List.prefix_iff_eq_take.mp hpre)
    have hbefore : before = is.take before.length :=
      List.prefix_iff_eq_take.mp ((List.prefix_append _ _).trans hpre)
    have hlen : before.length < 17 := by
      have hle := hpre.length_le
      rw [List.length_append] at hle
      exact hle
    have hj : j < 2 := (List.getElem?_eq_some_iff.mp ha).1
    rw [hafter] at hm hcount ⊢
    rw [hbefore] at hun
    exact hwritten before.length hlen hun hm j hj hcount
  refine ⟨hquiet, ?_⟩
  obtain ⟨-, hnone, -⟩ := (soft_failed_invisible .union).2 "$m" twoDeliveries .departed is hquiet
    (List.replicate 15 0) (List.prefix_append _ _) (by decide)
  exact hnone (by decide)

/-- The second delivery has read the mark before the first writes it, and waits for the
room's lock meanwhile: it appends the event under the mark. -/
theorem departed_appended :
    let waiting := [1, 1] ++ List.replicate 15 0
    let u := (runActions .union twoDeliveries .departed waiting).2
    let u' := (runActions .union twoDeliveries .departed (waiting ++ List.replicate 18 1)).2
    u.server.softFailed "$m" = true ∧ u.server.getPduId "$m" = none ∧ u'.server.softFailed "$m" = true ∧
      u'.roomPducountEventid "!r:a" 3 = some "$m" := by decide

end Congruent
