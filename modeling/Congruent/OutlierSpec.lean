import Congruent.HandleOutlier
import Congruent.KeyedMap

/-!
# What `handle_outlier_pdu` answers

Its writes are all allowed, and an answer is traced back to what was taken for the
event, in one of the ways it may come about.
-/

namespace Congruent

open H Call

theorem attach_strip (id : EventId) (stashed : Option Value) (incoming : Object) :
    (attach id stashed incoming).strip = incoming.strip := by
  unfold attach
  simp only
  split
  · split
    · exact Object.strip_insert_eventId _ _
    · rw [Object.strip_insert_unsigned, Object.strip_insert_eventId]
  · exact Object.strip_insert_eventId _ _

section
variable {plat : Platform} {s s' : Server} {room : RoomId} {id : EventId} {value json : Object}
  {T : Server → Server → Prop} [Grows T]

theorem Traced.later (h : Traced plat s.log room id json) (hr : Relation.ReflTransGen T s s') : Traced plat
    s'.log room id json :=
  h.mono fun _ hm => Grows.path hr hm

theorem Taken.later (h : Taken s.log room id json) (hr : Relation.ReflTransGen T s s') : Taken
    s'.log room id json :=
  h.mono fun _ hm => Grows.path hr hm

/-- JSON taken for an event, what peers attach to it aside. -/
def Fetched (log : List Mark) (room : RoomId) (id : EventId) (value : Object) : Prop :=
  ∃ x, Taken log room id x ∧ value.remove "unsigned" = x.remove "unsigned"

theorem Taken.fetched {l : List Mark} (h : Taken l room id value) : Fetched l room id value := ⟨value, h, rfl⟩

theorem Fetched.later (h : Fetched s.log room id value) (hr : Relation.ReflTransGen T s s') : Fetched
    s'.log room id value := by
  obtain ⟨x, hx, hu⟩ := h
  exact ⟨x, hx.later hr, hu⟩

theorem Fetched.traced {l : List Mark} (h : Fetched l room id value) : Traced plat l room id value := by
  obtain ⟨x, hx, hu⟩ := h
  refine hx.traced.same ?_
  rw [SameBody, ← Object.strip_remove_unsigned, hu, Object.strip_remove_unsigned]

/-! ## How an answer comes about -/

/-- What the checks leave to be answered. -/
def How.Fresh : How → Prop
  | validated | refetched | skipped => True
  | known | reused => False

theorem How.Allowed.later {how : How} (hf : how.Fresh) (h : how.Allowed plat s room id value json)
    (hr : Relation.ReflTransGen T s s') : how.Allowed plat s' room id value json := by
  cases how with
  | validated => exact ⟨h.1.mono fun _ hm => Grows.path hr hm, h.2⟩
  | refetched =>
    obtain ⟨x, hx, hb⟩ := h
    exact ⟨x, Grows.path hr hx, hb⟩
  | skipped => exact h.mono fun _ hm => Grows.path hr hm
  | known => exact hf.elim
  | reused => exact hf.elim

theorem Kept.same {v : RoomVersionId} {result : Verified} {json' : Object} (h : Kept plat v value result json)
    (hs : SameBody json' json) : Kept plat v value result json' := by
  cases result with
  | all => exact hs.trans h
  | signatures =>
    obtain ⟨x, hx, hb⟩ := h
    exact ⟨x, hx, hs.trans hb⟩

theorem Vouched.same {counts : Site → Prop} {l : List Mark} {json' : Object} (h : Vouched plat counts l id json)
    (hs : SameBody json' json) : Vouched plat counts l id json' :=
  h.imp_right fun ⟨site, room, v, value, result, hc, hm, hk⟩ => ⟨site, room, v, value, result, hc, hm, hk.same hs⟩

theorem Derived.same {json' : Object} (h : Derived plat value json) (hs : SameBody json' json) :
    Derived plat value json' :=
  h.imp (fun hb => hs.trans hb) fun ⟨v, x, hx, hb⟩ => ⟨v, x, hx, hs.trans hb⟩

theorem How.Allowed.same {how : How} (hf : how.Fresh) {json' : Object} (h : how.Allowed plat s room id value json)
    (hs : SameBody json' json) : how.Allowed plat s room id value json' := by
  cases how with
  | validated => exact ⟨h.1.same hs, h.2.same hs⟩
  | refetched =>
    obtain ⟨x, hx, hb⟩ := h
    exact ⟨x, hx, hs.trans hb⟩
  | skipped => exact Vouched.same h hs
  | known => exact hf.elim
  | reused => exact hf.elim

/-- An answer of `handle_outlier_pdu`. -/
def Answered (plat : Platform) (room : RoomId) (id : EventId) (value : Object) (skip : Bool) (r : Pdu × Object)
    (s : Server) : Prop :=
  r.1.eventId = id ∧ Traced plat s.log room id r.2 ∧
    ∃ how, (skip = false → how ≠ .skipped) ∧ .returned how room id value r.2 ∈ s.log

theorem Answered.later {skip : Bool} {r : Pdu × Object} (h : Answered plat room id value skip r s)
    (hr : Relation.ReflTransGen T s s') : Answered plat room id value skip r s' := by
  obtain ⟨hid, ht, how, hh, hm⟩ := h
  exact ⟨hid, ht.later hr, how, hh, Grows.path hr hm⟩

/-- What the signature check leaves. -/
def CheckedOk (plat : Platform) (room : RoomId) (id : EventId) (value : Object) (skip : Bool) (c : Checked)
    (s : Server) : Prop :=
  match c with
  | .go how incoming => how.Fresh ∧ (skip = false → how ≠ .skipped) ∧ Traced plat s.log room id incoming ∧
      how.Allowed plat s room id value incoming
  | .answer pdu json => Answered plat room id value skip (pdu, json) s

theorem fromIdVal_eventId {pdu : Pdu} (h : fromIdVal plat id json room = .ok pdu) : pdu.eventId = id := by
  unfold fromIdVal at h
  split at h
  · cases h
  · simp only at h
    split at h
    · cases h
    · split at h
      · cases h
      · split at h
        · cases h
        · split at h
          · cases h
            rfl
          · cases h

theorem getPdu_eventId {pdu : Pdu} (h : s.getPdu plat id = some pdu) : pdu.eventId = id := by
  unfold Server.getPdu at h
  cases hj : s.eventidPdu id with
  | none => simp [hj] at h
  | some json =>
    simp only [hj, Option.bind_some, Option.map_eq_some_iff] at h
    obtain ⟨_, _, rfl⟩ := h
    rfl

theorem getPdu_exists {pdu : Pdu} (h : s.getPdu plat id = some pdu) : s.pduExists id := by
  unfold Server.getPdu at h
  unfold Server.pduExists
  cases hj : s.eventidPdu id with
  | none => simp [hj] at h
  | some json => rfl

/-! ## Known events -/

variable [Admits plat T]

theorem knownVerdict_ensures {pdu : Pdu} (skip : Bool) (hid : pdu.eventId = id)
    (hm : .readBack room id json ∈ s.log) :
    Ensures T (fun r s => ∀ a, r = some a → Answered plat room id value skip a s)
      (knownVerdict plat room id value pdu json) s := by
  refine Ensures.act fun s' hr => ?_
  have hm' := Grows.path hr hm
  split
  · rename_i hret
    refine ⟨(quietly plat (.takeRetry id) rfl hret).trans
      (quietly plat (.markEventRejected id .missingAuthEvent) rfl trivial),
      fun r hr' s'' _ a ha => ?_⟩
    cases hr'
    cases ha
  · split
    · exact ⟨.refl, fun r hr' => by cases hr'⟩
    · rename_i hrej
      have hnone : s'.rejection id = none := by simpa [Server.isEventRejected] using hrej
      refine ⟨quietly plat (.note _) rfl ⟨.inl rfl, hm', hnone⟩, fun r hr' s'' hp a ha => ?_⟩
      cases hr'
      cases ha
      exact ⟨hid, (Taken.readBack (Grows.path hp (List.mem_cons_of_mem _ hm'))).traced, .known, by simp,
        Grows.path hp (List.mem_cons_self ..)⟩

theorem knownOutlier_ensures (skip : Bool) :
    Ensures T (fun r s => ∀ a, r = some a → Answered plat room id value skip a s)
      (knownOutlier plat room id value) s := by
  unfold knownOutlier
  refine (getOutlierPduJson_ensures room id).bind fun r s' _ hb => ?_
  split
  · exact Ensures.pure fun _ _ _ ha => by cases ha
  · rename_i json
    split
    · exact Ensures.pure fun _ _ _ ha => by cases ha
    · rename_i pdu hpdu
      exact knownVerdict_ensures skip (fromIdVal_eventId hpdu) (hb json rfl)

/-! ## Signatures -/

section
variable {v : RoomVersionId}

theorem redactOutlier_ensures (ht : Fetched s.log room id value)
    (hm : .verified .handleOutlier room v id (value.remove "unsigned") .signatures ∈ s.log) :
    Ensures T (CheckedOk plat room id value false)
      (redactOutlier plat room id v (value.remove "unsigned")) s := by
  unfold redactOutlier
  split
  · rename_i r hred
    refine Ensures.pure fun s' hr => ⟨trivial, by simp, ?_, ?_⟩
    · obtain ⟨x, hx, hu⟩ := ht.later hr
      rw [hu] at hm hred
      exact ⟨x, hx, .inr ⟨_, v, r, Grows.path hr hm, hred, rfl⟩⟩
    · exact ⟨.inr ⟨_, room, v, _, .signatures, rfl, Grows.path hr hm, r, hred, rfl⟩, .inr ⟨v, r, hred, rfl⟩⟩
  · have htr : Traced plat s.log room id ((value.remove "unsigned").insert "event_id" (.str id)) :=
      ht.traced.same (by simp [SameBody])
    exact (addPduOutlier_keeps htr).andThen fun _ => (markEventRejected_keeps _ _).andThen fun _ => Ensures.throw

theorem hasPristineCopy_keeps (server : ServerName) : Keeps T (hasPristineCopy plat room id v server) s := by
  unfold hasPristineCopy
  refine (ask_keeps _).andThen fun answer => ?_
  split
  · refine (genEventId_ensures room v _).attempt.keeps.andThen fun r => ?_
    split
    · split
      · refine (verifyEventAt_ensures _ _ _ _ _).attempt.keeps.andThen fun r => ?_
        split <;> exact pure_keeps _
      · exact pure_keeps _
    · exact pure_keeps _
  · exact pure_keeps _

theorem refetchOutlier_ensures (server : ServerName) (ht : Fetched s.log room id value)
    (hm : .verified .handleOutlier room v id (value.remove "unsigned") .signatures ∈ s.log) :
    Ensures T (CheckedOk plat room id value false)
      (refetchOutlier plat room id v (value.remove "unsigned") server) s := by
  unfold refetchOutlier
  refine (ask_keeps _).andThen fun answer => ?_
  split
  · refine (genEventId_ensures room v _).attempt.keeps.andThen fun r => ?_
    split
    · rename_i clean
      refine (note_ensures (m := .answered room id clean) fun _ _ => trivial).bind fun _ s' _ ha => ?_
      refine Ensures.pure fun s'' hr => ⟨trivial, by simp, ?_, ?_⟩
      · exact (Taken.answered (Grows.path hr ha)).traced
      · exact ⟨clean, Grows.path hr ha, rfl⟩
    · exact redactOutlier_ensures ht hm
  · exact redactOutlier_ensures ht hm

theorem reuseOutlier_ensures :
    Ensures T (fun r s => ∀ a, r = some a → a.1.eventId = id ∧ .reencoded room id a.2 ∈ s.log)
      (reuseOutlier plat room id) s := by
  refine Ensures.act fun s' _ => ?_
  split
  · rename_i pdu json hpdu hjson
    refine ⟨quietly plat (.note (.reencoded room id (plat.reencode json))) rfl ⟨json, hjson, rfl⟩,
      fun r hr s'' hp a ha => ?_⟩
    cases hr
    cases ha
    exact ⟨getPdu_eventId hpdu, Grows.path hp (List.mem_cons_self ..)⟩
  · exact ⟨.refl, fun r hr s'' _ a ha => by cases hr; cases ha⟩

theorem recoverOutlier_ensures (origin : ServerName) (ht : Fetched s.log room id value)
    (hm : .verified .handleOutlier room v id (value.remove "unsigned") .signatures ∈ s.log) :
    Ensures T (CheckedOk plat room id value false)
      (recoverOutlier plat origin room id v value (value.remove "unsigned")) s := by
  unfold recoverOutlier
  refine reuseOutlier_ensures.bind fun r s' hr hreuse => ?_
  split
  · rename_i pdu obj
    obtain ⟨hid, hobj⟩ := hreuse _ rfl
    refine (lift_keeps _).andThen fun _ => ?_
    refine (note_ensures (m := .returned .reused room id value obj) fun s₁ h₁ =>
      ⟨.inr rfl, Grows.path h₁ hobj⟩).bind fun _ s₁ h₁ hret => ?_
    refine Ensures.pure fun s₂ h₂ => ?_
    exact ⟨hid, (Taken.reencoded (Grows.path (h₁.trans h₂) hobj)).traced, .reused, by simp, Grows.path h₂ hret⟩
  · have ht' := ht.later hr
    have hm' := Grows.path hr hm
    split
    · exact redactOutlier_ensures ht' hm'
    · split
      · exact redactOutlier_ensures ht' hm'
      · refine (hasPristineCopy_keeps _).andThen fun b => ?_
        split
        · exact refetchOutlier_ensures _ ht' hm'
        · exact redactOutlier_ensures ht' hm'

theorem verifyOutlier_ensures (origin : ServerName) (skip : Bool) (htr : Traced plat s.log room id value)
    (ht : skip = false → Fetched s.log room id value)
    (hv : skip = true → Vouched plat (fun _ => True) s.log id value) :
    Ensures T (CheckedOk plat room id value skip)
      (verifyOutlier plat origin room id v skip value (value.remove "unsigned")) s := by
  have hsame : SameBody (value.remove "unsigned") value := by simp [SameBody]
  unfold verifyOutlier
  cases skip with
  | true =>
    refine Ensures.pure fun s' hr => ⟨trivial, by simp, (htr.later hr).same hsame, ?_⟩
    exact ((hv rfl).mono fun _ hm => Grows.path hr hm).same hsame
  | false =>
    simp only [Bool.false_eq_true, ↓reduceIte]
    split
    · rename_i hby
      refine Ensures.pure fun s' hr => ⟨trivial, by simp, (htr.later hr).same hsame, .inl ?_, .inl hsame⟩
      simpa using hby
    · refine (verifyEventAt_ensures _ room v id _).attempt.bind fun r s' hr hv => ?_
      split
      · refine Ensures.pure fun s'' hr' => ⟨trivial, by simp, (htr.later (hr.trans hr')).same hsame, ?_, .inl hsame⟩
        exact .inr ⟨_, room, v, _, .all, rfl, Grows.path hr' (hv _ rfl), rfl⟩
      · exact recoverOutlier_ensures origin ((ht rfl).later hr) (hv _ rfl)
      · refine (addPduOutlier_keeps ((htr.later hr).same ?_)).andThen fun _ =>
          (markEventRejected_keeps _ _).andThen fun _ => Ensures.throw
        simp [SameBody]

end

/-! ## Auth events -/

section
variable {incoming : Object} {A : Type} {Q : A → Server → Prop}

theorem rejectOutlier_ensures (htr : Traced plat s.log room id incoming) (code : RejectionCode) (e : HErr) :
    Ensures T Q (rejectOutlier plat room id incoming code e : H A) s :=
  (markEventRejected_keeps _ _).andThen fun _ => (addPduOutlier_keeps htr).andThen fun _ => Ensures.throw

theorem rejectPoisoned_ensures (htr : Traced plat s.log room id incoming) (aid : EventId) :
    Ensures T Q (rejectPoisoned plat room id incoming aid : H A) s :=
  (markEventRejected_keeps _ _).andThen fun _ => (addPduOutlier_keeps htr).andThen fun _ =>
    (markEventRejected_keeps _ _).andThen fun _ => Ensures.throw

theorem deferOutlier_ensures (htr : Traced plat s.log room id incoming) (missing : List EventId) :
    Ensures T Q (deferOutlier plat room id incoming missing : H A) s :=
  (markEventRejected_keeps _ _).andThen fun _ => (addPduOutlier_keeps htr).andThen fun _ => Ensures.throw

theorem localAuthEvent_keeps (htr : Traced plat s.log room id incoming) (found : AuthEvents) (aid : EventId) :
    Keeps T (localAuthEvent plat room id incoming found aid) s := by
  unfold localAuthEvent
  refine (authEventPoisons_keeps _ _).andThen fun b => ?_
  split
  · exact rejectPoisoned_ensures htr aid
  · refine (read_keeps _).andThen fun code => ?_
    split
    · exact pure_keeps _
    · refine (read_keeps _).andThen fun auth => ?_
      split
      · exact pure_keeps _
      · refine (lift_keeps _).andThen fun _ => ?_
        split
        · exact rejectOutlier_ensures htr _ _
        · exact pure_keeps _

theorem keyAuthEvent_keeps (htr : Traced plat s.log room id incoming) (found : AuthEvents)
    (byKey : List (TypeStateKey × Pdu)) (aid : EventId) :
    Keeps T (keyAuthEvent plat room id incoming found byKey aid) s := by
  unfold keyAuthEvent
  refine (authEventPoisons_keeps _ _).andThen fun b => ?_
  split
  · exact rejectPoisoned_ensures htr aid
  · split
    · exact rejectOutlier_ensures htr _ _
    · refine (lift_keeps _).andThen fun _ => ?_
      split
      · exact rejectOutlier_ensures htr _ _
      · split
        · exact rejectOutlier_ensures htr _ _
        · exact pure_keeps _

theorem stillMissing_keeps (htr : Traced plat s.log room id incoming) (found : AuthEvents) (missing : List EventId)
    (aid : EventId) : Keeps T (stillMissing plat room id incoming found missing aid) s := by
  unfold stillMissing
  refine (authEventPoisons_keeps _ _).andThen fun b => ?_
  split
  · exact pure_keeps _
  · split
    · exact rejectPoisoned_ensures htr aid
    · exact pure_keeps _

theorem refuseMissing_keeps (htr : Traced plat s.log room id incoming) (u : Unit) (mid : EventId) :
    Keeps T (refuseMissing plat room id incoming u mid) s := by
  unfold refuseMissing
  refine (authEventPoisons_keeps _ _).andThen fun b => ?_
  split
  · exact rejectOutlier_ensures htr _ _
  · exact pure_keeps _

def ChainTaken (room : RoomId) (chain : List (EventId × (Object × Pdu))) (s : Server) : Prop :=
  ∀ p ∈ chain, Taken s.log room p.1 p.2.1

theorem readAuthChain_ensures {v : RoomVersionId} {chain : List (EventId × (Object × Pdu))}
    (hc : ChainTaken room chain s) (raw : RawPdu) :
    Ensures T (ChainTaken room) (readAuthChain plat room v chain raw) s := by
  have hlater : ∀ {s₁ : Server}, Relation.ReflTransGen T s s₁ → ChainTaken room chain s₁ :=
    fun hr p hp => (hc p hp).later hr
  unfold readAuthChain
  refine (genEventId_ensures room v raw).attempt.bind fun r s' hr ht => ?_
  split
  · exact Ensures.pure fun _ hr' => hlater (hr.trans hr')
  · rename_i eid val
    split
    · exact Ensures.pure fun _ hr' => hlater (hr.trans hr')
    · split
      · exact Ensures.pure fun _ hr' => hlater (hr.trans hr')
      · refine Ensures.pure fun s₁ hr' p hp => ?_
        rcases List.mem_cons.mp hp with rfl | hp
        · exact (ht _ rfl).later hr'
        · exact hlater (hr.trans hr') p (List.mem_filter.mp hp).1

variable {recur : EventId → Object → H (Pdu × Object)}
  (hrec : ∀ (s : Server) (eid : EventId) (val : Object), Taken s.log room eid val → Keeps T (recur eid val) s)

include hrec in
theorem handleAuthChain_keeps {chain : List (EventId × (Object × Pdu))} (htr : Traced plat s.log room id incoming)
    (hc : ChainTaken room chain s) (found : AuthEvents) (eid : EventId) :
    Keeps T (handleAuthChain plat recur room id incoming chain found eid) s := by
  unfold handleAuthChain
  split
  · exact pure_keeps _
  · rename_i val _ hl
    split
    · exact pure_keeps _
    · refine (hrec s eid val (hc _ (List.mem_of_lookup hl))).attempt.keeps.andThen fun r => ?_
      split
      · exact pure_keeps _
      · split
        · exact rejectOutlier_ensures htr _ _
        · exact pure_keeps _

include hrec in
theorem fetchAuthChain_keeps {v : RoomVersionId} (origin : ServerName) (htr : Traced plat s.log room id incoming)
    (found : AuthEvents) : Keeps T (fetchAuthChain plat recur origin room id v incoming found) s := by
  unfold fetchAuthChain
  refine (ask_keeps _).andThen fun answer => ?_
  split
  · exact pure_keeps _
  · rename_i raws
    have hchain : Ensures T (ChainTaken room) (raws.foldlM (readAuthChain plat room v) []) s := by
      refine Ensures.foldlM raws (fun chain s₁ _ hc s₂ hr p hp => (hc p hp).later hr) ?_ (by simp [ChainTaken])
      exact fun chain raw _ s₁ _ hc => readAuthChain_ensures hc raw
    refine hchain.bind fun chain s' hr hc => ?_
    refine (ask_keeps _).andThen fun degrees => (ask_keeps _).andThen fun order => ?_
    exact Ensures.foldlM_keeps _ fun found eid _ => handleAuthChain_keeps hrec (htr.later hr) hc found eid

include hrec in
theorem resolveMissing_keeps {v : RoomVersionId} (origin : ServerName) (pdu : Pdu)
    (htr : Traced plat s.log room id incoming) (missing : List EventId) (found : AuthEvents)
    (stage : AuthRecoveryStage) :
    Keeps T
      (resolveMissingOutlierAuthEvents plat recur origin room id v pdu incoming missing found stage) s := by
  unfold resolveMissingOutlierAuthEvents
  refine (Ensures.foldlM_keeps _ fun u mid _ => refuseMissing_keeps htr u mid).andThen fun _ => ?_
  split
  · exact deferOutlier_ensures htr _
  · refine (fetchAuthChain_keeps hrec origin htr found).andThen fun found => ?_
    refine (Ensures.foldlM_keeps _ fun missing aid _ => stillMissing_keeps htr found missing aid).andThen
      fun still => ?_
    split
    · exact pure_keeps _
    · exact deferOutlier_ensures htr _

include hrec in
theorem completeAuthEvents_keeps {v : RoomVersionId} (origin : ServerName) (pdu : Pdu)
    (htr : Traced plat s.log room id incoming) (found : AuthEvents) (stage : AuthRecoveryStage) :
    Keeps T (completeAuthEvents plat recur origin room id v pdu incoming found stage) s := by
  unfold completeAuthEvents
  simp only
  split
  · exact pure_keeps _
  · exact resolveMissing_keeps hrec origin pdu htr _ found stage

/-! ## The handler -/

include hrec in
theorem authorizeOutlier_ensures {v : RoomVersionId} (origin : ServerName) (create : Option Pdu)
    (stage : AuthRecoveryStage) {how : How} (skip : Bool) (hf : how.Fresh) (hskip : skip = false → how ≠ .skipped)
    (htr : Traced plat s.log room id incoming) (hhow : how.Allowed plat s room id value incoming) :
    Ensures T (Answered plat room id value skip)
      (authorizeOutlier plat recur origin create id room v stage how value incoming) s := by
  unfold authorizeOutlier
  split
  · exact (markEventRejected_keeps _ _).andThen fun _ => Ensures.throw
  · rename_i pdu hpdu
    refine (lift_keeps _).andThen fun _ => ?_
    refine (Ensures.foldlM_keeps _ fun found aid _ => localAuthEvent_keeps htr found aid).andThen fun found => ?_
    refine (completeAuthEvents_keeps hrec origin pdu htr found stage).andThen fun found => ?_
    refine (Ensures.foldlM_keeps _ fun byKey aid _ => keyAuthEvent_keeps htr found byKey aid).andThen
      fun byKey => ?_
    split
    · exact rejectOutlier_ensures htr _ _
    · split
      · exact rejectOutlier_ensures htr _ _
      · refine (addPduOutlier_keeps htr).andThen fun _ => ?_
        have haccept : Ensures T (fun _ s => .returned how room id value incoming ∈ s.log)
            (write plat (.accept how room id value incoming)) s := by
          refine Ensures.act fun s' hr => ⟨quietly plat (.accept ..) rfl ⟨?_, hhow.later hf hr⟩,
            fun _ _ s'' hr' => ?_⟩
          · constructor <;> rintro rfl <;> exact hf
          · exact Grows.path hr' (List.mem_cons_self ..)
        refine haccept.bind fun _ s' hr hret => Ensures.pure fun s'' hr' => ?_
        exact ⟨fromIdVal_eventId hpdu, htr.later (hr.trans hr'), how, hskip, Grows.path hr' hret⟩

include hrec in
theorem outlierBody_ensures (origin : ServerName) (create : Option Pdu) (skip : Bool) (roomVersion : RoomVersionId)
    (stage : AuthRecoveryStage) (htr : Traced plat s.log room id value)
    (ht : skip = false → Fetched s.log room id value)
    (hv : skip = true → Vouched plat (fun _ => True) s.log id value) :
    Ensures T (Answered plat room id value skip)
      (outlierBody plat recur origin create id room value skip roomVersion stage) s := by
  unfold outlierBody
  refine (knownOutlier_ensures skip).bind fun r s' hr hknown => ?_
  split
  · rename_i answer
    exact Ensures.pure fun s'' hr' => (hknown answer rfl).later hr'
  · have htr' := htr.later hr
    split
    · exact (addPduOutlier_keeps (htr'.same (by simp [SameBody]))).andThen fun _ =>
        (markEventRejected_keeps _ _).andThen fun _ => Ensures.throw
    · refine (lift_keeps _).andThen fun v => ?_
      refine (verifyOutlier_ensures origin skip htr' (fun h => (ht h).later hr) fun h =>
        (hv h).mono fun _ hm => Grows.path hr hm).bind fun c s₁ _ hc => ?_
      split
      · exact Ensures.pure fun s₂ hr₂ => Answered.later hc hr₂
      · rename_i how incoming
        obtain ⟨hf, hskip, htr₁, hhow⟩ := hc
        have hsame : SameBody (attach id (value.get "unsigned") incoming) incoming := attach_strip _ _ _
        exact authorizeOutlier_ensures hrec origin create stage skip hf hskip (htr₁.same hsame) (hhow.same hf hsame)

end

/-- Whatever depth it is given, `handle_outlier_pdu` makes only allowed writes and
answers with JSON traced back to its event. -/
theorem handleOutlierPdu_ensures (origin : ServerName) (create : Option Pdu) (roomVersion : RoomVersionId)
    (stage : AuthRecoveryStage) : ∀ (n : Nat) {s : Server} {id : EventId} {value : Object} (skip : Bool),
    Traced plat s.log room id value → (skip = false → Fetched s.log room id value) →
    (skip = true → Vouched plat (fun _ => True) s.log id value) →
    Ensures T (Answered plat room id value skip)
      (handleOutlierPdu plat origin create room roomVersion stage n id value skip) s
  | 0, _, _, _, _, _, _, _ => Ensures.throw
  | n + 1, _, _, _, skip, htr, ht, hv =>
    outlierBody_ensures (fun _ _ _ ht' =>
      (handleOutlierPdu_ensures origin create roomVersion stage n false ht'.traced (fun _ => ht'.fetched)
        (by simp)).keeps)
      origin create skip roomVersion stage htr ht hv

theorem handleOutlierPdu_taken (origin : ServerName) (create : Option Pdu) (roomVersion : RoomVersionId)
    (stage : AuthRecoveryStage) (n : Nat) (hf : Fetched s.log room id value) :
    Ensures T (Answered plat room id value false)
      (handleOutlierPdu plat origin create room roomVersion stage n id value false) s :=
  handleOutlierPdu_ensures origin create roomVersion stage n false hf.traced (fun _ => hf) (by simp)

end

end Congruent
