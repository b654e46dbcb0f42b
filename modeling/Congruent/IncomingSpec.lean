import Congruent.Incoming

/-!
# What the handlers of incoming events write

Every write on the way of a delivered event is allowed: an event is upgraded only
when it was handed over by one of the handler's paths.
-/

namespace Congruent

open H
open Call (Ensures Keeps)

section
variable {plat : Platform} {s s' : Server} {room : RoomId}

/-! ## Predecessors -/

theorem notRejected_ensures (id : EventId) :
    Ensures (Step plat) (fun b s => b = true → .eligible id ∈ s.log) (notRejected plat id) s := by
  refine Ensures.act fun s' _ => ?_
  split
  · exact ⟨.refl, fun b hb s'' _ h => by cases hb; cases h⟩
  · rename_i hr
    have hnone : s'.rejection id = none := by simpa [Server.isEventRejected] using hr
    refine ⟨step (.note (.eligible id)) (by simp [Write.Allowed, Mark.Allowed, hnone]), fun b _ s'' hp _ => ?_⟩
    exact Path.log hp (List.mem_cons_self ..)

theorem retryWorthy_ensures (id : EventId) :
    Ensures (Step plat) (fun b s => b = true → .eligible id ∈ s.log) (retryWorthy plat id) s := by
  refine Ensures.act fun s' _ => ?_
  split
  · rename_i hr
    have hall : (s'.rejection id).all RejectionCode.isRetryable = true := by
      cases hc : s'.rejection id with
      | none => rfl
      | some code => simpa [hc] using hr
    exact ⟨step (.note (.eligible id)) hall, fun b _ s'' hp _ => Path.log hp (List.mem_cons_self ..)⟩
  · exact ⟨.refl, fun b hb s'' _ h => by cases hb; cases h⟩

theorem eligiblePrev_ensures (id : EventId) :
    Ensures (Step plat) (fun b s => b = true → .eligible id ∈ s.log) (eligiblePrev plat id) s := by
  unfold eligiblePrev
  refine (notRejected_ensures id).bind fun b s' _ hb => ?_
  split
  · rename_i htrue
    exact Ensures.pure fun _ hr _ => Path.log hr (hb htrue)
  · exact retryWorthy_ensures id

/-- A predecessor as it is handed to the upgrade. -/
def PrevHanded (plat : Platform) (call : Nat) (room : RoomId) (prev : EventId) (r : Pdu × Object)
    (s : Server) : Prop :=
  r.1.eventId = prev ∧ Handed plat s.log call room prev r.2 false ∧ Traced plat s.log room prev r.2

theorem PrevHanded.later {call : Nat} {prev : EventId} {r : Pdu × Object} (h : PrevHanded plat call room prev r s)
    (hr : Path plat s s') : PrevHanded plat call room prev r s' :=
  ⟨h.1, h.2.1.mono fun _ hm => Path.log hr hm, h.2.2.later hr⟩

section
variable {call : Nat} {id : EventId} {json : Object}

theorem Entered.later (h : Entered plat s.log call room id json) (hr : Path plat s s') :
    Entered plat s'.log call room id json :=
  h.mono fun _ hm => Path.log hr hm

theorem Answered.prev (he : Entered plat s.log call room id json) {prev : EventId} {value : Object}
    {r : Pdu × Object} (h : Answered plat room prev value false r s) : PrevHanded plat call room prev r s := by
  obtain ⟨hid, htr, how, hhow, hm⟩ := h
  exact ⟨hid, .fetched id json he value how (hhow rfl) hm, htr⟩

theorem storedPrev_ensures (he : Entered plat s.log call room id json) (prev : EventId) :
    Ensures (Step plat) (fun r s => ∀ a, r = some a → PrevHanded plat call room prev a s)
      (storedPrev plat room prev) s := by
  have hnone : ∀ {s : Server}, Ensures (Step plat) (fun r s => ∀ a, r = some a → PrevHanded plat call room prev a s)
      (pure none : H (Option (Pdu × Object))) s := Ensures.pure fun _ _ _ ha => by cases ha
  unfold storedPrev
  refine (read_keeps _).andThen fun position => ?_
  split
  · exact hnone
  · refine (eligiblePrev_ensures prev).bind fun b s' hr hb => ?_
    split
    · rename_i htrue
      refine (getOutlierPduJson_ensures room prev).bind fun r s₁ hr₁ hread => ?_
      split
      · exact hnone
      · rename_i json
        split
        · exact hnone
        · rename_i pdu hpdu
          refine (note_ensures (m := .promoted room prev json) fun s₂ hr₂ =>
            ⟨Path.log (hr₁.trans hr₂) (hb htrue), Path.log hr₂ (hread json rfl)⟩).bind fun _ s₂ hr₂ hm => ?_
          refine Ensures.pure fun s₃ hr₃ a ha => ?_
          cases ha
          have he' := he.later (((hr.trans hr₁).trans hr₂).trans hr₃)
          exact ⟨fromIdVal_eventId hpdu, .promoted _ _ he' (Path.log hr₃ hm),
            (Taken.readBack (Path.log (hr₂.trans hr₃) (hread json rfl))).traced⟩
    · exact hnone

theorem handlePrevPdu_keeps (n : Nat) (he : Entered plat s.log call room id json) (origin : ServerName)
    (id' : EventId) {info : Option (Pdu × Object)} (create : Pdu) (firstTs : Nat) {prev : EventId}
    (anchor : Option EventId)
    (hinfo : ∀ a, info = some a → PrevHanded plat call room prev a s) :
    Keeps (Step plat) (handlePrevPdu plat n call origin id' room info create firstTs prev anchor) s := by
  unfold handlePrevPdu
  refine (ask_keeps _).andThen fun disabled => ?_
  split
  · exact Ensures.throw
  · refine (ask_keeps _).andThen fun backing => ?_
    split
    · exact pure_keeps _
    · have hprev : Ensures (Step plat) (fun r s => ∀ a, r = some a → PrevHanded plat call room prev a s)
          (prevInfo plat room prev info) s := by
        unfold prevInfo
        split
        · rename_i a
          exact Ensures.pure fun _ hr b hb => by cases hb; exact (hinfo a rfl).later hr
        · exact storedPrev_ensures he prev
      refine hprev.bind fun r s' _ hr => ?_
      split
      · exact pure_keeps _
      · rename_i pdu json
        obtain ⟨rfl, hh, htr⟩ := hr _ rfl
        split
        · exact pure_keeps _
        · refine (read_keeps _).andThen fun code => ?_
          split
          · exact pure_keeps _
          · exact (upgrade_keeps n hh htr create origin false anchor).andThen fun _ => pure_keeps _

/-! ## `process_timeline_upgrade` -/

/-- Every checked predecessor may be handed to the upgrade. -/
def InfosOk (plat : Platform) (call : Nat) (room : RoomId) (infos : PrevInfos) (s : Server) : Prop :=
  ∀ e ∈ infos, PrevHanded plat call room e.1 e.2 s

theorem InfosOk.later {infos : PrevInfos} (h : InfosOk plat call room infos s) (hr : Path plat s s') :
    InfosOk plat call room infos s' :=
  fun e he => (h e he).later hr

theorem checkPrev_ensures (n : Nat) (he : Entered plat s.log call room id json) (origin : ServerName) (create : Pdu)
    (v : RoomVersionId) {fetch : PrevFetch} (hf : fetch.Ok room s) {infos : PrevInfos}
    (hi : InfosOk plat call room infos s) (prev : EventId) :
    Ensures (Step plat) (InfosOk plat call room) (checkPrev plat n origin create room v fetch infos prev) s := by
  unfold checkPrev
  split
  · exact Ensures.pure fun _ hr => hi.later hr
  · rename_i value hl
    obtain ⟨l, l', hll, _⟩ := List.lookup_eq_some_iff.mp hl
    have hfetched : Fetched s.log room prev value := hf (prev, value) (by rw [hll]; simp)
    refine (handleOutlierPdu_taken origin (some create) v _ n hfetched).attempt.bind fun r s' hr ha => ?_
    split
    · rename_i info
      refine Ensures.pure fun s'' hr' e hmem => ?_
      rcases List.mem_cons.mp hmem with rfl | hmem
      · exact ((ha info rfl).prev (he.later hr)).later hr'
      · exact (hi e hmem).later (hr.trans hr')
    · exact Ensures.pure fun _ hr' => hi.later (hr.trans hr')

theorem upgradePrev_keeps (n : Nat) (he : Entered plat s.log call room id json)
    (origin : ServerName) (id' : EventId)
    (create : Pdu) (firstTs : Nat) (fetch : PrevFetch) {infos : PrevInfos} (hi : InfosOk plat call room infos s)
    (recovered : Bool) (prev : EventId) :
    Keeps (Step plat) (upgradePrev plat n call origin id' room create firstTs fetch infos recovered prev) s := by
  unfold upgradePrev
  simp only
  refine (handlePrevPdu_keeps n he origin id' create firstTs _ ?_).attempt.keeps.andThen fun result => ?_
  · intro a ha
    obtain ⟨l, l', hll, _⟩ := List.lookup_eq_some_iff.mp ha
    exact hi (prev, a) (by rw [hll]; simp)
  · exact (ask_keeps _).andThen fun _ => Ensures.refuse.keeps.andThen fun _ => pure_keeps _

theorem processTimelineUpgrade_keeps (n : Nat) {pdu : Pdu}
    (he : Entered plat s.log call room pdu.eventId json) (htr : Traced plat s.log room pdu.eventId json)
    (create : Pdu) (origin : ServerName) {prefetched : Option PrevFetch}
    (hp : ∀ f, prefetched = some f → f.Ok room s) :
    Keeps (Step plat) (processTimelineUpgrade plat n call pdu json create origin room prefetched) s := by
  unfold processTimelineUpgrade
  refine (ask_keeps _).andThen fun first => (orElse_keeps _ _).andThen fun firstTs => ?_
  refine (ask_keeps _).andThen fun version => (orElse_keeps _ _).andThen fun v => ?_
  have hfetch : Ensures (Step plat) (PrevFetch.Ok room) (prefetchedOr plat origin room pdu prefetched) s := by
    unfold prefetchedOr
    split
    · rename_i f
      exact Ensures.pure fun _ hr => (hp f rfl).later hr
    · exact fetchPrev_ensures _ _ _ _
  refine hfetch.bind fun fetch s₁ hr₁ hf => (read_keeps _).andThen fun allUnknown => ?_
  have htr₁ := htr.later hr₁
  split
  · exact (addPduOutlier_keeps htr₁).andThen fun _ => (markEventRejected_keeps _ _).andThen fun _ => Ensures.throw
  · unfold upgradeWithPrevs
    have hinfos : Ensures (Step plat) (InfosOk plat call room)
        (fetch.sorted.foldlM (checkPrev plat n origin create room v fetch) []) s₁ :=
      Ensures.foldlM _ (fun _ _ _ hi _ hr => hi.later hr)
        (fun _ prev _ _ hr hi => checkPrev_ensures n (he.later (hr₁.trans hr)) origin create v
          (hf.later hr) hi prev)
        (by simp [InfosOk])
    refine hinfos.bind fun infos s₂ hr₂ hi => ?_
    have hr := hr₁.trans hr₂
    refine (Ensures.foldlM_keeps _ fun recovered prev _ =>
      upgradePrev_keeps n (he.later hr) origin _ create firstTs fetch hi recovered prev).andThen fun recovered => ?_
    exact (upgrade_keeps n (.entered (he.later hr)) (htr.later hr) create origin recovered _).andThen
      fun _ => pure_keeps _

end

/-! ## The retry of rejected outliers -/

theorem noting_ensures {m : Mark} {b : Server → Bool} (hm : ∀ s', b s' = true → m.Allowed plat s') :
    Ensures (Step plat) (fun r s => r = true → m ∈ s.log) (noting plat m b) s := by
  refine Ensures.act fun s' _ => ?_
  split
  · rename_i hb
    exact ⟨step (.note m) (hm s' hb), fun _ _ s'' hp _ => Path.log hp (List.mem_cons_self ..)⟩
  · exact ⟨.refl, fun r hr s'' _ h => by cases hr; cases h⟩

theorem loop_ensures {f : List EventId → H Bool} {b : EventId → Server → Bool} {mark : EventId → Mark}
    (hnil : f [] = pure true)
    (hcons : ∀ x xs, f (x :: xs) = noting plat (mark x) (b x) >>= fun r => if r then f xs else pure false)
    (hm : ∀ x s', b x s' = true → (mark x).Allowed plat s') : ∀ (xs : List EventId)
    {marks : List Mark} {s : Server},
      (∀ m ∈ marks, m ∈ s.log) → Ensures (Step plat)
      (fun r s => r = true → ∀ m ∈ marks ++ xs.map mark, m ∈ s.log) (f xs) s
  | [], marks, s, h => by
    rw [hnil]
    exact Ensures.pure fun s' hr _ m hmem => Path.log hr (h m (by simpa using hmem))
  | x :: xs, marks, s, h => by
    rw [hcons]
    refine (noting_ensures (hm x)).bind fun r s₁ hr hx => ?_
    cases r with
    | true =>
      have hmarks : ∀ m ∈ marks ++ [mark x], m ∈ s₁.log := by
        intro m hmem
        rcases List.mem_append.mp hmem with hmem | hmem
        · exact Path.log hr (h m hmem)
        · rw [List.mem_singleton.mp hmem]
          exact hx rfl
      have hrest := loop_ensures hnil hcons hm xs hmarks
      rw [List.append_assoc] at hrest
      exact hrest
    | false => exact Ensures.pure fun _ _ hfalse => by cases hfalse

theorem depsSatisfied_ensures {call : Nat} {pdu : Pdu}
    (hc : .considered call pdu.eventId pdu.authEvents pdu.prevEvents ∈ s.log) :
    Ensures (Step plat) (fun r s => r = true → DepsFound s.log call pdu.eventId)
      (depsSatisfied plat call pdu) s := by
  have hstart : ∀ m ∈ [Mark.considered call pdu.eventId pdu.authEvents pdu.prevEvents], m ∈ s.log := by
    intro m hmem
    rw [List.mem_singleton.mp hmem]
    exact hc
  have hauth : ∀ aid s', s'.isEventAccepted aid = true → (Mark.authAccepted call aid).Allowed plat s' :=
    fun _ _ h => h
  have hprev : ∀ prev s', (s'.getPduId prev).isSome = true → (Mark.prevInTimeline call prev).Allowed plat s' :=
    fun _ _ h => h
  unfold depsSatisfied
  refine (loop_ensures (f := authEventsAccepted plat call) rfl (fun _ _ => rfl) hauth pdu.authEvents hstart).bind
    fun r s₁ _ hauths => ?_
  cases r with
  | true =>
    refine (loop_ensures (f := prevEventsInTimeline plat call) rfl (fun _ _ => rfl) hprev pdu.prevEvents
      (hauths rfl)).mono fun r s₂ hall hr => ?_
    refine ⟨pdu.authEvents, pdu.prevEvents, hall hr _ (by simp), fun aid haid => hall hr _ ?_,
      fun prev hprev => hall hr _ ?_⟩
    · exact List.mem_append_left _ (List.mem_append_right _ (List.mem_map_of_mem haid))
    · exact List.mem_append_right _ (List.mem_map_of_mem hprev)
  | false => exact Ensures.pure fun _ _ hfalse => by cases hfalse

theorem roomCreate_keeps : Keeps (Step plat) (roomCreate plat room) s :=
  (read_keeps _).andThen fun _ => orElse_keeps _ _

section
variable {call : Nat} {origin : ServerName} {id : EventId} {value : Object}

theorem getOutlierPduJson_stored (hs : s.pduExists id) :
    Ensures (Step plat) (fun r s => ∃ json, r = some json ∧ .readBack room id json ∈ s.log)
      (getOutlierPduJson plat room id) s := by
  refine Ensures.act fun s' hr => ?_
  have hs' := Path.pduExists hr hs
  cases he : s'.eventidPdu id with
  | none => simp [Server.pduExists, he] at hs'
  | some json =>
    simp only
    refine ⟨step (.note _) he, fun a ha s'' hr' => ?_⟩
    cases ha
    exact ⟨json, rfl, Path.log hr' (List.mem_cons_self ..)⟩

theorem retryJson_ensures (hs : s.pduExists id) (hu : .unrejected call id ∈ s.log) :
    Ensures (Step plat) (fun json s => .retried call room id json ∈ s.log ∧ .readBack room id json ∈ s.log)
      (retryJson plat call room id value) s := by
  unfold retryJson
  refine (getOutlierPduJson_stored hs).bind fun r s₁ hr₁ hread => ?_
  obtain ⟨json, rfl, hjson⟩ := hread
  refine (note_ensures (m := .retried call room id json) fun s₂ hr₂ =>
    ⟨Path.log (hr₁.trans hr₂) hu, Path.log hr₂ hjson⟩).bind fun _ s₂ hr₂ hm => ?_
  exact Ensures.pure fun s₃ hr₃ => ⟨Path.log hr₃ hm, Path.log (hr₂.trans hr₃) hjson⟩

theorem retryRejected_keeps (n : Nat) {pdu : Pdu} (hd : .delivered call origin room pdu.eventId value ∈ s.log)
    (hs : s.pduExists pdu.eventId) (hc : .considered call pdu.eventId pdu.authEvents pdu.prevEvents ∈ s.log) :
    Keeps (Step plat) (retryRejected plat n call origin room pdu.eventId value pdu) s := by
  unfold retryRejected
  refine (depsSatisfied_ensures hc).bind fun deps s₁ hr₁ hdeps => ?_
  split
  · rename_i hfound
    have hun : Ensures (Step plat) (fun _ s => .unrejected call pdu.eventId ∈ s.log)
        (write plat (.unreject call pdu.eventId)) s₁ :=
      Ensures.act fun s' hr => ⟨step (.unreject ..) ((hdeps hfound).mono fun _ => Path.log hr),
        fun _ _ _ hp => Path.log hp (List.mem_cons_self ..)⟩
    refine hun.bind fun _ s₂ hr₂ hu => roomCreate_keeps.andThen fun create => ?_
    have hr := hr₁.trans hr₂
    refine (retryJson_ensures (Path.pduExists hr hs) hu).bind fun json s₃ hr₃ hj => map_keeps _ ?_
    exact processTimelineUpgrade_keeps n (.retried origin value (Path.log (hr.trans hr₃) hd) hj.1)
      (Taken.readBack hj.2).traced create origin (by simp)
  · exact pure_keeps _

theorem nativeRetry_keeps (n : Nat) (hd : .delivered call origin room id value ∈ s.log) :
    Keeps (Step plat) (nativeRetry plat n call origin room id value) s := by
  unfold nativeRetry
  refine Ensures.bind (Q := fun r s => ∀ pdu, r = some pdu → pdu.eventId = id ∧ s.pduExists id) ?_
    fun r s₁ hr₁ hid => ?_
  · refine Ensures.act fun s' _ => ⟨.refl, fun a ha s'' hr pdu hpdu => ?_⟩
    cases ha
    exact ⟨getPdu_eventId hpdu, Path.pduExists hr (getPdu_exists hpdu)⟩
  · split
    · exact pure_keeps _
    · rename_i pdu
      obtain ⟨rfl, hs⟩ := hid pdu rfl
      have hconsidered : Ensures (Step plat)
          (fun r s => r = true → .considered call pdu.eventId pdu.authEvents pdu.prevEvents ∈ s.log)
          (noting plat (.considered call pdu.eventId pdu.authEvents pdu.prevEvents)
            fun s => !s.isEventAccepted pdu.eventId) s₁ :=
        noting_ensures fun s' hr => (Bool.not_eq_true' _).mp hr
      refine hconsidered.bind fun rejected s₂ hr₂ hc => ?_
      split
      · rename_i hrejected
        have hr := hr₁.trans hr₂
        exact retryRejected_keeps n (Path.log hr hd) (Path.pduExists hr₂ hs) (hc hrejected)
      · exact pure_keeps _

/-! ## Access control -/

theorem isDisabled_ensures (hd : .delivered call origin room id value ∈ s.log) :
    Ensures (Step plat) (fun b s => b = false → .notDisabled call room ∈ s.log) (isDisabled plat call room) s := by
  refine Ensures.act fun s' hr => ?_
  split
  · exact ⟨step .tick trivial, fun b hb s'' _ h => by cases hb; cases h⟩
  · rename_i h
    have hfalse : (s'.world s'.clock).isDisabled room = false := by simpa using h
    have hnote : (Write.note (.notDisabled call room)).Allowed plat s' := ⟨hfalse, _, _, _, Path.log hr hd⟩
    exact ⟨(step _ hnote).trans (step .tick trivial), fun b _ s'' hp _ => Path.log hp (List.mem_cons_self ..)⟩

theorem aclCheck_ensures (hd : .delivered call origin room id value ∈ s.log) (server : ServerName) :
    Ensures (Step plat) (fun _ s => .aclAllowed call room server ∈ s.log) (aclCheck plat call server room) s := by
  refine Ensures.act fun s' hr => ?_
  split
  · rename_i h
    exact ⟨step (.note (.aclAllowed call room server)) ⟨h, _, _, _, Path.log hr hd⟩,
      fun _ _ s'' hp => Path.log hp (List.mem_cons_self ..)⟩
  · exact ⟨.refl, fun _ hb => by cases hb⟩

def Gate (plat : Platform) (call : Nat) (origin : ServerName) (room : RoomId) (value : Object)
    (s : Server) : Prop :=
  .notDisabled call room ∈ s.log ∧ .aclAllowed call room origin ∈ s.log ∧
    ∀ server, senderServer plat value = some server → .aclAllowed call room server ∈ s.log

theorem Gate.later (h : Gate plat call origin room value s) (hr : Path plat s s') :
    Gate plat call origin room value s' :=
  ⟨Path.log hr h.1, Path.log hr h.2.1, fun server hs => Path.log hr (h.2.2 server hs)⟩

theorem accessCheck_ensures (hd : .delivered call origin room id value ∈ s.log) :
    Ensures (Step plat) (fun _ s => Gate plat call origin room value s)
      (accessCheck plat call origin room value) s := by
  unfold accessCheck
  refine (ask_keeps _).andThen fun metaExists => ?_
  cases hs : incomingSender plat value with
  | none => exact Ensures.bind (Q := fun _ _ => False) Ensures.throw fun _ _ _ h => h.elim
  | some sender =>
    have hserver : senderServer plat value = some (plat.codec.userServerName sender) := by
      unfold incomingSender at hs
      rw [senderServer, hs]
      rfl
    refine Ensures.bind (Q := fun a _ => a = sender) (Ensures.pure fun _ _ => rfl) fun a s₁ hr₁ ha => ?_
    subst ha
    have hd₁ := Path.log hr₁ hd
    refine (isDisabled_ensures hd₁).bind fun disabled s₂ hr₂ hn => ?_
    refine (aclCheck_ensures (Path.log hr₂ hd₁) origin).bind fun _ s₃ hr₃ ho => ?_
    have hsender : Ensures (Step plat) (fun _ s => .aclAllowed call room (plat.codec.userServerName a) ∈ s.log)
        (senderAclCheck plat call origin (plat.codec.userServerName a) room) s₃ := by
      unfold senderAclCheck
      split
      · rename_i he
        exact Ensures.pure fun _ hr => by rw [he]; exact Path.log hr ho
      · exact aclCheck_ensures (Path.log (hr₂.trans hr₃) hd₁) _
    refine hsender.bind fun _ s₄ hr₄ hsa => Ensures.refuse.bind fun _ s₅ hr₅ hfalse => Ensures.pure fun s₆ hr₆ => ?_
    have hr : Path plat s₄ s₆ := hr₅.trans hr₆
    refine ⟨Path.log ((hr₃.trans hr₄).trans hr) (hn hfalse), Path.log (hr₄.trans hr) ho, fun server hv => ?_⟩
    rw [hserver] at hv
    cases hv
    exact Path.log hr hsa

theorem shouldRescindInvite_keeps (sender : UserId) :
    Keeps (Step plat) (shouldRescindInvite plat value sender room) s := by
  unfold shouldRescindInvite
  simp only
  split
  · exact pure_keeps _
  · split
    · exact pure_keeps _
    · split
      · exact Ensures.throw
      · split
        · exact pure_keeps _
        · split
          · exact pure_keeps _
          · refine (ask_keeps _).andThen fun events => ?_
            split
            · exact pure_keeps _
            · exact lift_keeps _

theorem participation_keeps (ht : Taken s.log room id value) (sender : UserId) (metaExists : Bool) :
    Keeps (Step plat) (participation plat room id value sender metaExists) s := by
  have hstore : Keeps (Step plat) (do
      addPduOutlier plat room id value
      pure (some (none : Option Nat))) s :=
    (addPduOutlier_keeps ht.traced).andThen fun _ => pure_keeps _
  unfold participation notParticipating
  refine (ask_keeps _).andThen fun inRoom => ?_
  split
  · exact pure_keeps _
  · simp only
    split
    · exact Ensures.throw
    · refine (shouldRescindInvite_keeps sender).andThen fun rescind => ?_
      split
      · exact hstore
      · split
        · exact pure_keeps _
        · exact hstore

/-! ## Missing auth events -/

theorem anyPoisons_keeps : ∀ missing, Keeps (Step plat) (anyPoisons plat room missing) s
  | [] => pure_keeps _
  | mid :: missing => by
    unfold anyPoisons
    refine (authEventPoisons_keeps _ _).andThen fun b => ?_
    split
    · exact pure_keeps _
    · exact anyPoisons_keeps missing

theorem stateIdsAnchor_ensures (pdu : Option Pdu) (flag : Bool) :
    Ensures (Step plat) (fun a s => ∀ f, a.prefetched = some f → f.Ok room s)
      (stateIdsAnchor plat origin room id pdu flag) s := by
  have hplain : ∀ {s : Server} (d : Option EventId) (a : EventId),
      Ensures (Step plat) (fun a s => ∀ f, a.prefetched = some f → f.Ok room s) (pure ⟨d, a, none⟩ : H Anchor) s :=
    fun d a => Ensures.pure fun _ _ f hf => by cases hf
  unfold stateIdsAnchor
  simp only
  split
  · split
    · refine (fetchPrev_ensures _ _ _ _).attempt.bind fun r s' _ hf => ?_
      split
      · rename_i fetch
        split
        · refine Ensures.pure fun s'' hr f hfe => ?_
          cases hfe
          exact (hf fetch rfl).later hr
        · exact hplain _ _
      · exact hplain _ _
    · exact hplain _ _
  · exact hplain _ _

theorem fetchMissing_keeps (n : Nat) (create : Pdu) (v : RoomVersionId) (fetches : Nat) (mid : EventId) :
    Keeps (Step plat) (fetchMissing plat n origin create room v fetches mid) s := by
  unfold fetchMissing
  refine (read_keeps _).andThen fun known => ?_
  split
  · exact pure_keeps _
  · split
    · exact pure_keeps _
    · refine (ask_keeps _).andThen fun answer => ?_
      split
      · refine (genEventId_ensures room v _).attempt.bind fun r s' _ ht => ?_
        split
        · rename_i eid value
          split
          · rename_i he
            subst he
            have ht' := ht _ rfl
            exact (handleOutlierPdu_taken origin (some create) v _ n ht'.fetched).attempt.keeps.andThen fun _ =>
              pure_keeps _
          · exact pure_keeps _
        · exact pure_keeps _
      · exact pure_keeps _

theorem retryWithState_ensures (n : Nat) (create : Pdu) (ht : Taken s.log room id value)
    (roomVersion : RoomVersionId)
    (missing : List EventId) (isPartial : Bool) (a : Anchor) :
    Ensures (Step plat) (Answered plat room id value false)
      (retryWithState plat n origin create room id value roomVersion missing isPartial a) s := by
  have hstate : Keeps (Step plat) (fetchAnchorState plat n origin create room isPartial a) s := by
    unfold fetchAnchorState
    refine (read_keeps _).andThen fun known => ?_
    split
    · exact pure_keeps _
    · exact (fetchState_keeps n origin create _).andThen fun _ => pure_keeps _
  unfold retryWithState
  refine hstate.andThen fun _ => (ask_keeps _).andThen fun version => (orElse_keeps _ _).andThen fun v => ?_
  refine (Ensures.foldlM_keeps _ fun fetches mid _ => fetchMissing_keeps n create v fetches mid).andThen fun _ => ?_
  exact handleOutlierPdu_taken origin (some create) roomVersion _ n ht.fetched

def PassedOk (plat : Platform) (room : RoomId) (id : EventId) (value : Object) (r : Passed) (s : Server) : Prop :=
  ∀ pdu json prefetched, r = some (pdu, json, prefetched) →
    Answered plat room id value false (pdu, json) s ∧ ∀ f, prefetched = some f → f.Ok room s

theorem nothing_passed : Ensures (Step plat) (PassedOk plat room id value) (pure none : H Passed) s :=
  Ensures.pure fun _ _ _ _ _ h => by cases h

theorem recoverMissing_ensures (n : Nat) (create : Pdu) (ht : Taken s.log room id value)
    (roomVersion : RoomVersionId)
    (missing : List EventId) (flag isPartial : Bool) :
    Ensures (Step plat) (PassedOk plat room id value)
      (recoverMissing plat n origin create room id value roomVersion missing flag isPartial) s := by
  unfold recoverMissing
  refine (anyPoisons_keeps _).andThen fun poisoned => ?_
  split
  · exact (addPduOutlier_keeps ht.traced).andThen fun _ => (markEventRejected_keeps _ _).andThen fun _ =>
      nothing_passed
  · refine (stateIdsAnchor_ensures _ _).bind fun a s₁ hr₁ ha => ?_
    refine (retryWithState_ensures n create (ht.later hr₁) roomVersion missing isPartial a).attempt.bind
      fun r s₂ hr₂ hr => ?_
    split
    · rename_i pdu json
      refine Ensures.pure fun s₃ hr₃ pdu' json' prefetched he => ?_
      cases he
      exact ⟨(hr _ rfl).later hr₃, fun f hf => (ha f hf).later (hr₂.trans hr₃)⟩
    · exact (addPduOutlier_keeps (ht.later (hr₁.trans hr₂)).traced).andThen fun _ => nothing_passed

theorem checkIncoming_ensures (n : Nat) (create : Pdu) (ht : Taken s.log room id value) (flag : Bool)
    (roomVersion : RoomVersionId) :
    Ensures (Step plat) (PassedOk plat room id value)
      (checkIncoming plat n origin create room id value flag roomVersion) s := by
  unfold checkIncoming
  refine (partialServer_keeps _).andThen fun isPartial => ?_
  refine Ensures.andThen ?_ fun missingPrev => ?_
  · unfold hasMissingPrev
    split
    · exact read_keeps _
    · exact pure_keeps _
  · simp only
    refine (handleOutlierPdu_taken origin (some create) roomVersion _ n ht.fetched).attempt.bind
      fun r s₁ hr₁ hr => ?_
    have ht₁ := ht.later hr₁
    split
    · refine Ensures.pure fun s₂ hr₂ pdu' json' prefetched he => ?_
      cases he
      exact ⟨(hr _ rfl).later hr₂, by simp⟩
    · exact recoverMissing_ensures n create ht₁ roomVersion _ flag isPartial
    · split
      · exact (addPduOutlier_keeps ht₁.traced).andThen fun _ => nothing_passed
      · split
        · unfold storeDependent
          refine (addPduOutlier_keeps ht₁.traced).andThen fun _ => ?_
          split
          · exact (markEventRejected_keeps _ _).andThen fun _ => nothing_passed
          · exact nothing_passed
        · exact Ensures.throw
    · exact Ensures.throw

/-! ## `handle_incoming_pdu` -/

theorem admitIncoming_keeps (n : Nat) (ht : Taken s.log room id value)
    (hd : .delivered call origin room id value ∈ s.log) (flag : Bool) (roomVersion : RoomVersionId) :
    Keeps (Step plat) (admitIncoming plat n call origin room id value flag roomVersion) s := by
  unfold admitIncoming
  refine Ensures.refuse.keeps.andThen fun _ => ?_
  refine (accessCheck_ensures hd).bind fun access s₁ hr₁ hgate => ?_
  refine (participation_keeps (ht.later hr₁) _ _).andThen fun done => ?_
  split
  · exact pure_keeps _
  · refine Ensures.refuse.keeps.andThen fun _ => roomCreate_keeps.andThen fun create => ?_
    refine (checkIncoming_ensures n create (ht.later hr₁) flag roomVersion).bind fun r s₂ hr₂ hr => ?_
    split
    · exact pure_keeps _
    · rename_i pdu json prefetched
      obtain ⟨⟨rfl, htr, how, hhow, hret⟩, hpre⟩ := hr pdu json prefetched rfl
      split
      · obtain ⟨hn, ho, hs⟩ := hgate.later hr₂
        exact processTimelineUpgrade_keeps n (.delivered origin value how (Path.log (hr₁.trans hr₂) hd) hn ho hs
          (hhow rfl) hret) htr create origin hpre
      · exact pure_keeps _

theorem handleIncomingPduInner_keeps (n : Nat) (ht : Taken s.log room id value)
    (hd : .delivered call origin room id value ∈ s.log) (flag : Bool) (roomVersion : RoomVersionId) :
    Keeps (Step plat) (handleIncomingPduInner plat n call origin room id value flag roomVersion) s := by
  unfold handleIncomingPduInner
  refine Ensures.andThen ?_ fun accepted => ?_
  · unfold acceptedAlready
    refine (read_keeps _).andThen fun position => ?_
    split
    · exact pure_keeps _
    · refine (read_keeps _).andThen fun b => ?_
      split <;> exact pure_keeps _
  · split
    · exact pure_keeps _
    · refine Ensures.andThen ?_ fun done => ?_
      · unfold retryIncoming
        split
        · exact nativeRetry_keeps n hd
        · exact pure_keeps _
      · split
        · exact pure_keeps _
        · exact admitIncoming_keeps n ht hd flag roomVersion

theorem handleIncomingPdu_keeps (n : Nat) (ht : Taken s.log room id value) (flag : Bool)
    (roomVersion : RoomVersionId) :
    Keeps (Step plat) (handleIncomingPdu plat n call origin room id value flag roomVersion) s := by
  unfold handleIncomingPdu
  refine (note_ensures (m := .delivered call origin room id value) fun _ _ => trivial).bind fun _ s₁ hr₁ hd => ?_
  refine Prog.Safe.bind Call.steps_refl Call.steps_trans
    (Prog.Safe.cut n (handleIncomingPduInner_keeps n (ht.later hr₁) hd flag roomVersion)) fun r s₂ hr₂ _ _ => ?_
  cases r with
  | some r => exact fun s₃ _ _ _ _ => trivial
  | none =>
    have htr : Traced plat s₂.log room id value := (ht.later (hr₁.trans hr₂)).traced
    exact (addPduOutlier_keeps (htr.same (by simp [SameBody]))).andThen fun _ => Ensures.throw

end

end

end Congruent
