import Congruent.LedgerSpec
import Congruent.Machine

/-!
# Every timeline event has a state

The row of an event is inserted before its root is published, and a later delivery
looks at the row alone. As long as no publication fails in between, every event with
a row has a root, whatever else fails.
-/

namespace Congruent

open H
open Call (Ensures Keeps Triple Leaves)

def Ledger.Rooted (t : Ledger) : Prop := ∀ id, (t.server.getPduId id).isSome → (t.server.eventRoot id).isSome

def Ledger.RootedBut (id : EventId) (t : Ledger) : Prop :=
  ∀ x, x ≠ id → (t.server.getPduId x).isSome → (t.server.eventRoot x).isSome

/-! ## Deliveries -/

/-- A delivery, or another write of the handlers. -/
inductive LedgerAction where
  | deliver (room : RoomId) (env : Env) (d : Delivery)
  | write (w : Write)

/-- A delivery may end with an error; what it wrote until then stays. -/
def Ledger.step (plat : Platform) : LedgerAction → Ledger → Option Ledger
  | .deliver room env d, t => some ((upgradeOutlierToTimelinePdu plat env room d).exec t).2
  | .write w, t => if w.quiet then some { t with server := w.apply plat t.server } else none

/-- The publication of an event's root does not fail while the event is appended. -/
def PublishSucceeds : LedgerAction → Ledger → Prop
  | .deliver _ env d, t => env.fails .publish = true → (t.server.getPduId d.id).isSome
  | .write _, _ => True

instance (a : LedgerAction) (t : Ledger) : Decidable (PublishSucceeds a t) := by
  cases a with
  | deliver room env d => exact inferInstanceAs (Decidable (_ → _))
  | write w => exact inferInstanceAs (Decidable True)

namespace Ledger

section
variable {plat : Platform} {env : Env} {room : RoomId} {t t' : Ledger} {d : Delivery}

theorem upgrade_present {n : Nat} (h : t.server.getPduId d.id = some n) :
    (upgradeOutlierToTimelinePdu plat env room d).exec t = (.ok (some n, false), t) := by
  unfold upgradeOutlierToTimelinePdu onServer
  rw [Call.exec_bind, Call.exec_zoom]
  rw [show (d.judge plat room).exec (serverPart.get t) = (.ok (.inl n), t.server) from judge_present h]
  rfl

/-! ## One append -/

theorem modify_leaves {f : Server → Server} (hm : ∀ s, (f s).eventidMetadata = s.eventidMetadata)
    (hr : ∀ s, (f s).eventRoot = s.eventRoot) : Leaves Rooted (onServer (Call.modify f)) := by
  rw [onServer_modify]
  refine Triple.modify fun t ht x hx => ?_
  simp only [Server.getPduId, hm, hr] at hx ⊢
  exact ht x hx

theorem insertPdu_rooted (pdu : Pdu) (json : Object) :
    Triple Rooted (insertPdu env room pdu json) (fun _ => RootedBut pdu.eventId) Rooted := by
  unfold insertPdu
  refine (Triple.read (Q := fun _ => Rooted) fun _ h => h).bind fun existing => ?_
  split
  · exact Triple.pure _ fun t ht x _ hx => ht x hx
  · refine (fallible_leaves _).bind fun _ t ht => ⟨fun n t' hp => ?_, fun e t' hp => by cases hp⟩
    cases hp
    intro x hx hp
    refine ht x ?_
    simpa [insertRows, Server.storePdu, Server.getPduId, Function.update_of_ne hx] using hp

theorem setEventStateWithRoot_rooted (hpub : env.fails .publish = false) (pdu : Pdu) (root : Root)
    (prevRoot : Option Root) :
    Triple (RootedBut pdu.eventId) (setEventStateWithRoot plat env room pdu root prevRoot)
      (fun _ => Rooted) Rooted := by
  unfold setEventStateWithRoot
  refine (Triple.refuse (P := RootedBut pdu.eventId) _ fun _ _ h => ?_).bind fun _ => ?_
  · rw [hpub] at h
    cases h
  · rw [onServer_modify]
    refine Triple.bind (Q := fun _ => Rooted) (Triple.modify fun t ht x hx => ?_) fun _ => ?_
    · by_cases hxp : x = pdu.eventId
      · simp [Server.storeRoot, hxp]
      · simpa [Server.storeRoot, Function.update_of_ne hxp] using ht.1 x hxp hx
    · split
      · exact caches_leave (P := fun s => ∀ id, (s.getPduId id).isSome → (s.eventRoot id).isSome) _ _ _
      · exact Triple.pure _ fun _ h => h

theorem appendPdu_rooted (hpub : env.fails .publish = false) (a : Append) (leaves : List EventId) :
    Leaves Rooted (appendPdu plat env a leaves) := by
  unfold appendPdu
  refine (fallible_leaves _).bind fun _ => ?_
  rw [onServer_read]
  refine (Triple.read (Q := fun _ => Rooted) fun _ h => h).bind fun prev => ?_
  refine ((Triple.refuse _ fun _ h _ => h).mono (fun _ h => h) (fun _ _ h => h.1) fun _ h => h).bind fun _ => ?_
  refine Triple.bind (modify_leaves (fun _ => rfl) fun _ => rfl) fun _ => (fallible_leaves _).bind fun _ => ?_
  refine Triple.bind (modify_leaves (fun _ => rfl) fun _ => rfl) fun _ =>
    (insertPdu_rooted _ _).bind fun position => ?_
  refine (setEventStateWithRoot_rooted hpub _ _ _).bind fun _ => ?_
  refine Triple.bind (Q := fun _ => Rooted) ?_ fun _ => ?_
  · unfold advanceState
    split
    · exact (fallible_leaves _).bind fun _ => modify_leaves (fun _ => rfl) fun _ => rfl
    · exact Triple.pure _ fun _ h => h
  · refine (fallible_leaves _).bind fun _ => (fallible_leaves _).bind fun _ => ?_
    exact Triple.bind (modify_leaves (fun _ => rfl) fun _ => rfl) fun _ => Triple.pure _ fun _ h => h

theorem clearOutlierFlag_leaves (id : EventId) : Leaves Rooted
    (onServer (Call.modify fun s => s.clearOutlierFlag id)) := by
  rw [onServer_modify]
  refine Triple.modify fun t ht x hx => ht x ?_
  by_cases hxi : x = id
  · subst hxi
    cases hm : t.server.eventidMetadata x <;> simp_all [Server.getPduId, Server.clearOutlierFlag]
  · simpa [Server.getPduId, Server.clearOutlierFlag, Function.update_of_ne hxi] using hx

theorem accept_rooted (hpub : env.fails .publish = false) (recovered : Bool) (st : Settled) :
    Leaves Rooted (accept plat env room d recovered st) := by
  unfold accept prepareCaches appendIncomingPdu
  simp only [Bool.false_eq_true, ↓reduceIte]
  refine Triple.bind (Q := fun _ => Rooted) ?_ fun _ => Triple.bind (Q := fun _ => Rooted) ?_ fun _ =>
    Triple.pure _ fun _ h => h
  · split
    · refine (fallible_leaves _).bind fun _ => ?_
      exact caches_leave (P := fun s => ∀ id, (s.getPduId id).isSome → (s.eventRoot id).isSome) _ _ _
    · exact Triple.pure _ fun _ h => h
  · refine (appendPdu_rooted hpub _ _).bind fun position => (clearOutlierFlag_leaves _).bind fun _ => ?_
    refine (fallible_leaves _).bind fun _ => Triple.bind (modify_leaves (fun _ => rfl) fun _ => rfl) fun _ => ?_
    exact (fallible_leaves _).bind fun _ => Triple.pure _ fun _ h => h

theorem softFail_rooted (recovered : Bool) (st : Settled) : Leaves Rooted
    (softFail plat env room d recovered st) := by
  have hroot : Leaves Rooted (onServer (Call.modify fun s => s.storeRoot room d.id false st.root)) := by
    rw [onServer_modify]
    refine Triple.modify fun t ht x hx => ?_
    by_cases hxd : x = d.id
    · simp [Server.storeRoot, hxd]
    · simpa [Server.storeRoot, Function.update_of_ne hxd] using ht x hx
  unfold softFail appendIncomingPdu storeSoftFailed
  simp only [↓reduceIte]
  refine Triple.bind (Q := fun _ => Rooted) (Triple.bind (Q := fun _ => Rooted) ?_ fun _ =>
    Triple.pure _ fun _ h => h)
    fun _ => ?_
  · refine (fallible_leaves _).bind fun _ => hroot.bind fun _ => ?_
    exact (fallible_leaves _).bind fun _ => modify_leaves (fun _ => rfl) fun _ => rfl
  · refine (fallible_leaves _).bind fun _ => Triple.bind (modify_leaves (fun _ => rfl) fun _ => rfl) fun _ => ?_
    exact Triple.throw _ fun _ h => h

theorem checks_rooted {A : Type} {p : H A} (h : ∀ s, Keeps Unmoved p s) : Leaves Rooted (onServer p) := by
  refine Leaves.zoom h fun t s' hr ht x hx => ?_
  have hu := Unmoved.of_path hr
  show (s'.eventRoot x).isSome
  rw [hu.eventRoot]
  exact ht x (hu.positions x hx)

theorem upgrade_rooted (hpub : env.fails .publish = false) :
    Leaves Rooted (upgradeOutlierToTimelinePdu plat env room d) := by
  unfold upgradeOutlierToTimelinePdu
  refine (checks_rooted (judge_keeps plat room d)).bind fun r => ?_
  split
  · exact Triple.pure _ fun _ h => h
  · refine (checks_rooted (settle_keeps plat room d _)).bind fun r => ?_
    split
    · exact Triple.pure _ fun _ h => h
    · unfold commit
      split
      · exact softFail_rooted _ _
      · exact accept_rooted hpub _ _

/-! ## Runs -/

theorem step_rooted {a : LedgerAction} (ht : t.Rooted) (hok : PublishSucceeds a t) (h : t.step plat a = some t') :
    t'.Rooted := by
  cases a with
  | deliver room env d =>
    cases h
    cases hpub : env.fails .publish with
    | false => exact (upgrade_rooted hpub).state ht
    | true =>
      obtain ⟨n, hn⟩ := Option.isSome_iff_exists.mp (hok hpub)
      rw [upgrade_present hn]
      exact ht
  | write w =>
    simp only [step] at h
    split at h
    · rename_i hq
      cases h
      intro x hx
      have hu : Unmoved t.server (w.apply plat t.server) := w.apply_unmoved hq
      show ((w.apply plat t.server).eventRoot x).isSome
      rw [hu.eventRoot]
      exact ht x (hu.positions x hx)
    · cases h

end

end Ledger

/-- In every run of deliveries and redeliveries in which no publication of a root
fails, an event that is answered as being in the timeline has a state root. -/
theorem timeline_events_rooted (plat : Platform) {t₀ t : Ledger} (h₀ : t₀.Rooted)
    (hrun : Reaches (fun a t => t.step plat a) PublishSucceeds t₀ t) (room : RoomId) (env : Env)
    (d : Delivery) (n : Nat)
    (hn : t.server.getPduId d.id = some n) :
    (Ledger.upgradeOutlierToTimelinePdu plat env room d).exec t = (.ok (some n, false), t) ∧
      (t.server.eventRoot d.id).isSome := by
  have hrooted : t.Rooted := Reaches.invariant h₀ (fun _ _ _ ht hok h => Ledger.step_rooted ht hok h) hrun
  exact ⟨Ledger.upgrade_present hn, hrooted d.id (by rw [hn]; rfl)⟩

theorem Ledger.plain_rooted : Ledger.plain.Rooted := by
  intro id h
  have hmeta : Server.withOutliers.eventidMetadata id = some ⟨true, none⟩ ∨
      Server.withOutliers.eventidMetadata id = List.lookup id [("$c", ⟨false, some 0⟩),
        ("$j", ⟨false, some 1⟩)] := by
    unfold Server.withOutliers
    simp only
    split
    · exact .inl rfl
    · exact .inr rfl
  have hid : id = "$c" ∨ id = "$j" := by
    by_contra hne
    rw [not_or] at hne
    have hc : (id == "$c") = false := by simpa using hne.1
    have hj : (id == "$j") = false := by simpa using hne.2
    simp only [List.lookup_cons, hc, hj, List.lookup_nil] at hmeta
    rcases hmeta with hm | hm <;> simp [Server.getPduId, Ledger.plain, hm] at h
  rcases hid with rfl | rfl
  · rfl
  · rfl

/-- An event delivered while its cache update fails, and delivered again. -/
theorem interrupted_event_rooted :
    let t := ((Ledger.upgradeOutlierToTimelinePdu .union (.failing (.stateDelta .withRoot)) "!r:a"
      (storedDelivery "$a")).exec .plain).2
    t.server.getPduId (storedDelivery "$a").id = some 2 ∧ (t.server.eventRoot (storedDelivery "$a").id).isSome := by
  intro t
  have hn : t.server.getPduId (storedDelivery "$a").id = some 2 := by decide
  refine ⟨hn, (timeline_events_rooted .union Ledger.plain_rooted (.next (.deliver "!r:a" _ _) .init ?_ rfl) "!r:a"
    .steady (storedDelivery "$a") 2 hn).2⟩
  intro h
  cases h

-- The publication fails after the row is there. A second delivery finds the row and
-- answers, without a root.
theorem unpublished_event_unrooted :
    ¬ ∀ (plat : Platform) (t₀ t : Ledger), t₀.Rooted → Reaches (fun a t => t.step plat a) (fun _ _ => True) t₀ t →
      ∀ (room : RoomId) (env : Env) (d : Delivery) (n : Nat),
        (Ledger.upgradeOutlierToTimelinePdu plat env room d).exec t = (.ok (some n, false), t) →
        (t.server.eventRoot d.id).isSome := by
  intro h
  let t := ((Ledger.upgradeOutlierToTimelinePdu .union (.failing .publish) "!r:a"
    (storedDelivery "$a")).exec .plain).2
  have hn : t.server.getPduId (storedDelivery "$a").id = some 2 := by decide
  have hroot := h .union .plain t Ledger.plain_rooted (.next (.deliver "!r:a" _ _) .init trivial rfl) "!r:a" .steady
    (storedDelivery "$a") 2 (Ledger.upgrade_present hn)
  exact absurd hroot (by decide)

end Congruent
