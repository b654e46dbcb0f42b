import Congruent.Ledger

/-!
# What an upgrade touches

The checks before the decision change no derived table. After it, what is written
for an accepted event and for a soft-failed one is said once, for any relation that
these writes belong to.
-/

namespace Congruent

open H
open Call (Ensures Keeps Triple Leaves)

section
variable {plat : Platform} {s s' : Server} {t t' : Ledger} {id : EventId} {room : RoomId} {d : Delivery}
  {A : Type}

/-! ## The checks -/

/-- Nothing but outliers, verdicts and the log differs. -/
structure Unmoved (s s' : Server) : Prop where
  log : ∀ m ∈ s.log, m ∈ s'.log
  eventRoot : s'.eventRoot = s.eventRoot
  roomRoot : s'.roomRoot = s.roomRoot
  pduleaves : s'.pduleaves = s.pduleaves
  referenced : s'.referenced = s.referenced
  softFailed : s'.softFailed = s.softFailed
  positions : ∀ id, (s'.getPduId id).isSome → (s.getPduId id).isSome

theorem Unmoved.refl (s : Server) : Unmoved s s := ⟨fun _ h => h, rfl, rfl, rfl, rfl, rfl, fun _ h => h⟩

theorem Unmoved.trans {s'' : Server} (h : Unmoved s s') (h' : Unmoved s' s'') : Unmoved s s'' where
  log m hm := h'.log m (h.log m hm)
  eventRoot := h'.eventRoot.trans h.eventRoot
  roomRoot := h'.roomRoot.trans h.roomRoot
  pduleaves := h'.pduleaves.trans h.pduleaves
  referenced := h'.referenced.trans h.referenced
  softFailed := h'.softFailed.trans h.softFailed
  positions x hx := h.positions x (h'.positions x hx)

theorem Unmoved.of_path (h : Relation.ReflTransGen Unmoved s s') : Unmoved s s' := by
  induction h with
  | refl => exact .refl s
  | tail _ hst ih => exact ih.trans hst

variable (plat s) in
theorem getPduId_addPduOutlier (x : EventId) (room : RoomId) (id : EventId) (json : Object)
    (h : ((s.addPduOutlier plat room id json).getPduId x).isSome) : (s.getPduId x).isSome := by
  unfold Server.addPduOutlier at h
  split at h
  · exact h
  · by_cases hx : x = id
    · subst hx
      cases hd : plat.decodePdu (json.insert "event_id" (.str x)) with
      | ok pdu => simp [Server.getPduId, hd] at h
      | error e => simpa [Server.getPduId, hd] using h
    · cases hd : plat.decodePdu (json.insert "event_id" (.str id)) with
      | ok pdu => simpa [Server.getPduId, hd, Function.update_of_ne hx] using h
      | error e => simpa [Server.getPduId, hd] using h

theorem Write.apply_unmoved (w : Write) (hq : w.quiet = true) : Unmoved s (w.apply plat s) := by
  have hlog : ∀ m ∈ s.log, m ∈ (w.apply plat s).log := by
    intro m hm
    rw [w.apply_log]
    exact List.mem_append_right _ hm
  cases w with
  | softFail call room x json flag root => cases hq
  | append a => cases hq
  | addPduOutlier room x json =>
    have hpos := fun y => getPduId_addPduOutlier plat s y room x json
    refine ⟨hlog, ?_, ?_, ?_, ?_, ?_, hpos⟩ <;>
      (show _ = _; simp only [Write.apply, Server.addPduOutlier]; split <;> rfl)
  | markEventRejected x code =>
    refine ⟨hlog, ?_, ?_, ?_, ?_, ?_, ?_⟩
    all_goals simp only [Write.apply, Server.markEventRejected]
    all_goals split
    all_goals first
      | rfl
      | exact fun _ h => h
  | tick => exact ⟨hlog, rfl, rfl, rfl, rfl, rfl, fun _ h => h⟩
  | note m => exact ⟨hlog, rfl, rfl, rfl, rfl, rfl, fun _ h => h⟩
  | takeRetry x => exact ⟨hlog, rfl, rfl, rfl, rfl, rfl, fun _ h => h⟩
  | accept how room x value json => exact ⟨hlog, rfl, rfl, rfl, rfl, rfl, fun _ h => h⟩
  | unreject call x => exact ⟨hlog, rfl, rfl, rfl, rfl, rfl, fun _ h => h⟩
  | clearStale x => exact ⟨hlog, rfl, rfl, rfl, rfl, rfl, fun _ h => h⟩

instance : Grows Unmoved := ⟨fun h hm => h.log _ hm⟩

instance : Admits plat Unmoved := ⟨fun w hq _ => w.apply_unmoved hq⟩

section
variable {T : Server → Server → Prop} [Grows T] [Admits plat T]

variable (plat room d) in
theorem judge_keeps (s : Server) : Keeps T (d.judge plat room) s := by
  unfold Delivery.judge
  refine (read_keeps _).andThen fun position => ?_
  split
  · exact pure_keeps _
  · refine (read_keeps _).andThen fun failed => ?_
    split
    · exact Ensures.throw
    · refine (lift_keeps _).andThen fun v => (stateAtIncoming_keeps _ _ _ _ _).andThen fun state => ?_
      refine (lift_keeps _).andThen fun version => (partialServer_keeps _).andThen fun isPartial => ?_
      refine (read_keeps _).andThen fun claimed => Ensures.ask.andThen fun passes => ?_
      split
      · exact (markEventRejected_keeps _ _).andThen fun _ => Ensures.throw
      · exact pure_keeps _

variable (plat room d) in
theorem settle_keeps (j : Judged) (s : Server) : Keeps T (d.settle plat room j) s := by
  unfold Delivery.settle
  refine (read_keeps _).andThen fun position => ?_
  split
  · exact pure_keeps _
  · refine (softFailCheck_keeps Admits.allows _ _ _ _ _ _).andThen fun failed => ?_
    refine (newRoomState_keeps Admits.allows _ _ _ _ _).andThen fun roots => ?_
    refine (laterSoftFail_keeps Admits.allows _ _).andThen fun softFail => ?_
    exact (read_keeps _).andThen fun leaves => pure_keeps _

end

theorem judge_present {n : Nat} (h : s.getPduId d.id = some n) : (d.judge plat room).exec s =
    (.ok (.inl n), s) := by
  unfold Delivery.judge
  rw [exec_read, h]
  rfl

theorem settle_inr {j : Judged} {st : Settled} (h : (d.settle plat room j).exec s = (.ok (.inr st), s')) :
    s.getPduId d.id = none := by
  unfold Delivery.settle at h
  rw [exec_read] at h
  split at h
  · cases h
  · rename_i hnone
    exact hnone

/-! ## The writes of one event -/

structure Touches (id : EventId) (s s' : Server) : Prop where
  log : ∀ m ∈ s.log, m ∈ s'.log
  softFailed : s'.softFailed = s.softFailed
  positions : ∀ x, x ≠ id → s'.getPduId x = s.getPduId x

structure SoftFails (id : EventId) (s s' : Server) : Prop where
  log : s'.log = s.log
  metadata : s'.eventidMetadata = s.eventidMetadata
  roomRoot : s'.roomRoot = s.roomRoot
  pduleaves : s'.pduleaves = s.pduleaves
  referenced : s'.referenced = s.referenced
  softFailed : ∀ x, s.softFailed x = true → s'.softFailed x = true

namespace Ledger

theorem onServer_read (f : Server → A) : onServer (read f) = Call.read fun t => f t.server := rfl

theorem onServer_read_bind {B : Type} (f : Server → A) (k : A → H B) :
    onServer (read f >>= k) = (Call.read fun t => f t.server) >>= fun a => onServer (k a) := by
  show Prog.op _ _ = Prog.op _ _
  congr 1
  funext b
  cases b <;> rfl

theorem onServer_modify (f : Server → Server) :
    onServer (Call.modify f) = Call.modify fun t => { t with server := f t.server } := rfl

section
variable {T : Ledger → Ledger → Prop} {env : Env}

theorem fallible_keeps (f : Fallible) : Keeps T (fallible env f) t := Ensures.refuse.keeps

theorem onServer_keeps {f : Server → Server} (h : ∀ t, T t { t with server := f t.server }) :
    Keeps T (onServer (Call.modify f)) t :=
  Ensures.modify fun t _ => .single (h t)

section
variable (hc : ∀ (t : Ledger) (c : StateCache), T t { t with cache := c })
include hc

theorem onCache_keeps (p : StateCache.Op A) : Keeps T (onCache p) t := by
  have hsafe : ∀ (q : Prog StateCache A) (t : Ledger),
      Prog.Safe (fun _ => True) (Relation.ReflTransGen T) (fun _ _ => True) (q.zoom cachePart) t := by
    intro q
    induction q with
    | ret a => exact fun _ _ _ _ => trivial
    | op f k ih => exact fun _ t' _ _ => ⟨trivial, .single (hc t' _), ih _ _⟩
  exact Prog.Safe.map (fun _ _ _ _ _ => trivial) (hsafe p t)

theorem updateMembership_keeps (pass : CachePass) (u : UserId) (pdu : Pdu) :
    Keeps T (updateMembership plat env pass room u pdu) t :=
  (fallible_keeps _).andThen fun _ => onCache_keeps hc _

theorem updateCachesForStateDelta_keeps (pass : CachePass) (root : Root) (removed added : List Pdu) :
    Keeps T (updateCachesForStateDelta plat env pass room root removed added) t := by
  unfold updateCachesForStateDelta
  refine (Ensures.foldlM_keeps _ fun _ u _ => onCache_keeps hc _).andThen fun _ => ?_
  refine Ensures.foldlM_keeps _ fun _ pdu _ => ?_
  unfold applyAdded
  split
  · exact updateMembership_keeps hc _ _ _
  · exact Ensures.pure fun _ _ => trivial

theorem updateCachesForStateDeltaBetween_keeps (pass : CachePass) (fromRoot : Option Root) (toRoot : Root) :
    Keeps T (updateCachesForStateDeltaBetween plat env pass room fromRoot toRoot) t := by
  unfold updateCachesForStateDeltaBetween
  simp only [onServer_read]
  refine (fallible_keeps _).andThen fun _ => Ensures.read.andThen fun added =>
    Ensures.read.andThen fun removed => ?_
  exact updateCachesForStateDelta_keeps hc _ _ _ _

variable (hs : ∀ (t : Ledger) (s : Server), Touches id t.server s → T t { t with server := s })
  (hr : ∀ (t : Ledger) (room : RoomId) (pdu : Pdu) (json : Object), pdu.eventId = id →
    T t (t.insertRows room pdu json))
include hs hr

theorem appendPdu_keeps {a : Append} (ha : a.pdu.eventId = id) (leaves : List EventId) :
    Keeps T (appendPdu plat env a leaves) t := by
  have hpos : ∀ (s s' : Server), s'.eventidMetadata = s.eventidMetadata → ∀ x, s'.getPduId x = s.getPduId x := by
    intro s s' h x
    unfold Server.getPduId
    rw [h]
  have hinsert : ∀ json, Keeps T (insertPdu env a.room a.pdu json) t := by
    intro json
    unfold insertPdu
    refine Ensures.read.andThen fun existing => ?_
    split
    · exact Ensures.pure fun _ _ => trivial
    · refine (fallible_keeps _).andThen fun _ => ?_
      exact Ensures.act fun t' _ => ⟨.single (hr t' _ _ _ ha), fun _ _ _ _ => trivial⟩
  have hroot : Keeps T (setEventStateWithRoot plat env a.room a.pdu a.root a.prevRoot) t := by
    unfold setEventStateWithRoot
    refine (fallible_keeps _).andThen fun _ => ?_
    refine (onServer_keeps fun t' => hs t' _ ⟨fun _ h => h, rfl, fun x _ => hpos _ _ rfl x⟩).andThen fun _ => ?_
    split
    · exact updateCachesForStateDeltaBetween_keeps hc _ _ _
    · exact Ensures.pure fun _ _ => trivial
  have hadvance : Keeps T (advanceState env a) t := by
    unfold advanceState
    split
    · refine (fallible_keeps _).andThen fun _ => ?_
      exact onServer_keeps fun t' => hs t' _ ⟨fun _ h => h, rfl, fun x _ => hpos _ _ rfl x⟩
    · exact Ensures.pure fun _ _ => trivial
  unfold appendPdu
  simp only [onServer_read]
  refine (fallible_keeps _).andThen fun _ => Ensures.read.andThen fun prev =>
    Ensures.refuse.keeps.andThen fun _ => ?_
  refine (onServer_keeps fun t' => hs t' _ ⟨fun _ h => h, rfl, fun x _ => hpos _ _ rfl x⟩).andThen fun _ => ?_
  refine (fallible_keeps _).andThen fun _ => ?_
  refine (onServer_keeps fun t' => hs t' _ ⟨fun _ h => List.mem_cons_of_mem _ h, rfl,
    fun x _ => hpos _ _ rfl x⟩).andThen fun _ => ?_
  refine (hinsert _).andThen fun position => hroot.andThen fun _ => hadvance.andThen fun _ => ?_
  refine (fallible_keeps _).andThen fun _ => (fallible_keeps _).andThen fun _ => ?_
  refine (onServer_keeps fun t' => hs t' _ ⟨fun _ h => List.mem_cons_of_mem _ h, rfl,
    fun x _ => hpos _ _ rfl x⟩).andThen fun _ => ?_
  exact Ensures.pure fun _ _ => trivial

theorem accept_keeps (hd : d.id = id) (recovered : Bool) (st : Settled) :
    Keeps T (accept plat env room d recovered st) t := by
  have hprepare : Keeps T (prepareCaches plat env room d recovered st) t := by
    unfold prepareCaches
    split
    · exact (fallible_keeps _).andThen fun _ => updateCachesForStateDeltaBetween_keeps hc _ _ _
    · exact Ensures.pure fun _ _ => trivial
  have hflag : ∀ t' : Ledger, Touches id t'.server (t'.server.clearOutlierFlag d.id) := by
    intro t'
    refine ⟨fun _ h => h, rfl, fun x hx => ?_⟩
    simp [Server.getPduId, Server.clearOutlierFlag, Function.update_of_ne (hd ▸ hx : x ≠ d.id)]
  unfold accept
  refine hprepare.andThen fun _ => Ensures.andThen ?_ fun position => Ensures.pure fun _ _ => trivial
  unfold appendIncomingPdu
  simp only [Bool.false_eq_true, ↓reduceIte]
  refine (appendPdu_keeps hc hs hr hd _).andThen fun position => ?_
  refine (onServer_keeps fun t' => hs t' _ (hflag t')).andThen fun _ => (fallible_keeps _).andThen fun _ => ?_
  refine (onServer_keeps fun t' => hs t' _ ⟨fun _ h => h, rfl, fun _ _ => rfl⟩).andThen fun _ => ?_
  exact (fallible_keeps _).andThen fun _ => Ensures.pure fun _ _ => trivial

end

theorem softFail_keeps (hs : ∀ (t : Ledger) (s : Server), SoftFails d.id t.server s → T t { t with server := s })
    (recovered : Bool) (st : Settled) : Keeps T (softFail plat env room d recovered st) t := by
  have hmark : ∀ t' : Ledger, SoftFails d.id t'.server (t'.server.markEventSoftFailed d.id) := by
    intro t'
    refine ⟨rfl, rfl, rfl, rfl, rfl, fun x hx => ?_⟩
    by_cases hxd : x = d.id
    · simp [Server.markEventSoftFailed, hxd]
    · simpa [Server.markEventSoftFailed, Function.update_of_ne hxd] using hx
  unfold softFail appendIncomingPdu storeSoftFailed
  simp only [↓reduceIte]
  refine Ensures.andThen (Ensures.andThen ?_ fun _ => Ensures.pure fun _ _ => trivial) fun _ => ?_
  · refine (fallible_keeps _).andThen fun _ => ?_
    refine (onServer_keeps fun t' => hs t' _ ⟨rfl, rfl, rfl, rfl, rfl, fun _ h => h⟩).andThen fun _ => ?_
    refine (fallible_keeps _).andThen fun _ => ?_
    exact onServer_keeps fun t' => hs t' _ ⟨rfl, rfl, rfl, rfl, rfl, fun _ h => h⟩
  · refine (fallible_keeps _).andThen fun _ => ?_
    exact (onServer_keeps fun t' => hs t' _ (hmark t')).andThen fun _ => Ensures.throw

end

/-! ## Running alone -/

section
variable {env : Env}

theorem fallible_leaves {P : Ledger → Prop} (f : Fallible) : Leaves P (fallible env f) :=
  (Triple.refuse _ fun _ h _ => h).mono (fun _ h => h) (fun _ _ h => h.1) fun _ h => h

theorem caches_leave {P : Server → Prop} (pass : CachePass) (fromRoot : Option Root) (toRoot : Root) :
    Leaves (fun t => P t.server) (updateCachesForStateDeltaBetween plat env pass room fromRoot toRoot) :=
  Leaves.of_keeps (fun t t' => t'.server = t.server)
    (fun _ => updateCachesForStateDeltaBetween_keeps (fun _ _ => rfl) _ _ _) fun t t' ht hp => by rwa [ht]

theorem onCache_triple {p : StateCache.Op A} {P X : Ledger → Prop} {Q : A → Ledger → Prop}
    (h : ∀ t, P t → Q (p.run t.cache).1 { t with cache := (p.run t.cache).2 }) : Triple P (onCache p) Q X := by
  intro t ht
  rw [onCache, Call.exec_ofProg, Prog.run_zoom]
  refine ⟨fun a t' hp => ?_, fun e t' hp => by cases hp⟩
  cases hp
  exact h t ht

end

end Ledger

end

end Congruent
