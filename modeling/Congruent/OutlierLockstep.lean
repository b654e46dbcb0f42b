import Congruent.HandleOutlier
import Congruent.KeyedMap
import Congruent.Lockstep

/-!
# What `handle_outlier_pdu` tells apart

Two servers on which the handling of an event runs the same: the peers answer the same,
the verdicts are the same, and so are the events of the room. What is done for the
events of an auth chain may be done by different programs that run the same.
-/

namespace Congruent

open H
open Call (Answers Lockstep Same)

/-- What is written for one event itself. -/
inductive Write.Own (room : RoomId) (id : EventId) : Write → Prop
  | tick : Own room id .tick
  | note (m : Mark) : Own room id (.note m)
  | add (json : Object) : Own room id (.addPduOutlier room id json)
  | mark (code : RejectionCode) : Own room id (.markEventRejected id code)
  | retry : Own room id (.takeRetry id)
  | accept (how : How) (value json : Object) : Own room id (.accept how room id value json)

section
variable (plat : Platform) (room : RoomId)

/-- The same known content, or content of another room, which is refused. -/
def Reused (r r' : Option (Pdu × Object)) : Prop :=
  r = r' ∨ ∃ a a' e, r = some a ∧ r' = some a' ∧ checkRoomId plat room a.1 = .error e ∧
    checkRoomId plat room a'.1 = .error e

/-- What is read of one event of an `/event_auth` response. -/
def enterAuthChain (v : RoomVersionId) (chain : List (EventId × (Object × Pdu))) (raw : RawPdu) :
    List (EventId × (Object × Pdu)) :=
  match raw with
  | none => chain
  | some value => match plat.genEventId v value with
    | .error _ => chain
    | .ok eid => match fromIdVal plat eid value room with
      | .error _ => chain
      | .ok pdu => match checkRoomId plat room pdu with
        | .error _ => chain
        | .ok () => (eid, (value, pdu)) :: chain.filter fun p => p.1 ≠ eid

def authChain (v : RoomVersionId) (raws : List RawPdu) : List (EventId × (Object × Pdu)) :=
  raws.foldl (enterAuthChain plat room v) []

section
variable (id : EventId) (R : Server → Server → Prop) (origin : ServerName) (v : RoomVersionId)

/-- An event that the answer about `id` has, and that is reached in its order. -/
inductive Chained (eid : EventId) (other : Object) : Prop
  | intro {raws : List RawPdu} {pdu : Pdu} {degrees order : List EventId}
    (asked : Answers R (ask plat fun w => w.eventAuth origin room id) (some raws))
    (counted : Answers R (ask plat fun w => reorder ((authChain plat room v raws).map (·.1))
      (w.order (authChain plat room v raws).length)) degrees)
    (read : Answers R (ask plat fun w => reorder ((authChain plat room v raws).map (·.1))
      (w.order (authChain plat room v raws).length)) order)
    (entry : List.lookup eid (authChain plat room v raws) = some (other, pdu))
    (sorted : eid ∈ sortedAuthChain (authChain plat room v raws) degrees order)

/-- Content of `id` whose check goes as far as to handle the event `eid`. -/
inductive Lacks (stage : AuthRecoveryStage) (incoming : Object) (eid : EventId) (other : Object) : Prop
  | intro {pdu : Pdu} {found : AuthEvents}
    (parsed : fromIdVal plat id incoming room = .ok pdu)
    (belongs : checkRoomId plat room pdu = .ok ())
    (looked : Answers R (pdu.authEvents.foldlM (localAuthEvent plat room id incoming) []) found)
    (lacks : ∃ aid ∈ pdu.authEvents, found.get aid = none)
    (late : stage = .afterStateIds)
    (chain : Chained plat room id R origin v eid other)

/-- The handling of `id` goes as far as to handle the event `eid`. -/
inductive Chases (create : Option Pdu) (roomVersion : RoomVersionId) (stage : AuthRecoveryStage) (value : Object)
    (skipSigVerify : Bool) (eid : EventId) (other : Object) : Prop
  | intro {v : RoomVersionId} {how : How} {content : Object}
    (fits : pduFits plat value = true)
    (version : outlierVersion plat create roomVersion = .ok v)
    (checked : Answers R (verifyOutlier plat origin room id v skipSigVerify value (value.remove "unsigned"))
      (.go how content))
    (lacks : Lacks plat room id R origin v stage (attach id (value.get "unsigned") content) eid other)

end

/-- The handling of an event does not tell these servers apart, and what it writes keeps
them so. -/
structure Handles (id : EventId) (R : Server → Server → Prop) : Prop where
  world : ∀ s t, R s t → s.world s.clock = t.world t.clock
  rejection : ∀ s t, R s t → s.rejection = t.rejection
  inRoom : ∀ s t, R s t → s.getPduInRoom plat room = t.getPduInRoom plat room
  writes : ∀ (w : Write) s t, w.Own room id → R s t → R (w.apply plat s) (w.apply plat t)
  known : ∀ value, Same R (knownOutlier plat room id value) (knownOutlier plat room id value)
  reuse : Lockstep R (Reused plat room) (reuseOutlier plat room id) (reuseOutlier plat room id)

end

section
variable {plat : Platform} {room : RoomId} {id : EventId} {R : Server → Server → Prop} {v : RoomVersionId}
  {incoming : Object} {A : Type} {Q : A → A → Prop}

theorem lift_same {R : Server → Server → Prop} (r : Except HErr A) : Same R (lift r) (lift r) := by
  cases r with
  | ok a => exact Lockstep.pure rfl
  | error e => exact Lockstep.throw e

theorem pure_same {R : Server → Server → Prop} (a : A) : Same R (pure a : H A) (pure a) := Lockstep.pure rfl

namespace Handles

variable (h : Handles plat room id R)

include h

theorem write_same {w : Write} (hw : w.Own room id) : Same R (write plat w) (write plat w) :=
  Lockstep.modify fun s t hs => h.writes w s t hw hs

theorem ask_same (f : World → A) : Same R (ask plat f) (ask plat f) := by
  apply Lockstep.act
  intro s t hs
  exact ⟨h.writes .tick s t .tick hs, .ok (congrArg f (h.world s t hs))⟩

theorem note_same (m : Mark) : Same R (note plat m) (note plat m) := h.write_same (.note m)

theorem add_same (json : Object) : Same R (addPduOutlier plat room id json) (addPduOutlier plat room id json) :=
  h.write_same (.add json)

theorem mark_same (code : RejectionCode) : Same R (markEventRejected plat id code)
    (markEventRejected plat id code) :=
  h.write_same (.mark code)

theorem rejection_same (f : (EventId → Option RejectionCode) → A) :
    Same R (read fun s => f s.rejection) (read fun s => f s.rejection) :=
  Lockstep.read fun s t hs => congrArg f (h.rejection s t hs)

theorem authEventPoisons_same (aid : EventId) :
    Same R (authEventPoisons plat aid room) (authEventPoisons plat aid room) := by
  unfold authEventPoisons
  apply Lockstep.andThen (h.rejection_same fun r => (r aid).any fun code => !code.isRetryable)
  intro poisons
  split
  · exact pure_same _
  · apply Lockstep.andThen (h.rejection_same fun r => r aid)
    intro code
    split
    · apply Lockstep.andThen (h.ask_same _)
      intro isPartial
      exact pure_same _
    · exact pure_same _

theorem genEventId_same (raw : RawPdu) :
    Same R (genEventIdCanonicalJson plat room v raw) (genEventIdCanonicalJson plat room v raw) := by
  unfold genEventIdCanonicalJson
  cases raw with
  | none => exact Lockstep.throw _
  | some value =>
    dsimp only
    cases plat.genEventId v value with
    | error e => exact Lockstep.throw _
    | ok eid =>
      apply Lockstep.andThen (h.note_same _)
      intro _
      exact pure_same _

theorem verifyEventAt_same (site : Site) (v : RoomVersionId) (x : EventId) (value : Object) :
    Same R (verifyEventAt plat site room v x value) (verifyEventAt plat site room v x value) := by
  apply Lockstep.act
  intro s t hs
  rw [← h.world s t hs]
  cases (s.world s.clock).verify v value with
  | ok r => exact ⟨h.writes .tick _ _ .tick (h.writes _ s t (.note _) hs), .ok rfl⟩
  | error e => exact ⟨h.writes .tick _ _ .tick hs, .error _⟩

/-! ## Signatures -/

theorem redactOutlier_same (value : Object) :
    Same R (redactOutlier plat room id v value) (redactOutlier plat room id v value) := by
  unfold redactOutlier
  cases plat.redact v value with
  | ok redacted => exact pure_same _
  | error e =>
    apply Lockstep.andThen (h.add_same _)
    intro _
    apply Lockstep.andThen (h.mark_same _)
    intro _
    exact Lockstep.throw _

theorem hasPristineCopy_same (server : ServerName) :
    Same R (hasPristineCopy plat room id v server) (hasPristineCopy plat room id v server) := by
  unfold hasPristineCopy
  apply Lockstep.andThen (h.ask_same _)
  intro answer
  split
  · apply Lockstep.andThen (Same.attempt (h.genEventId_same _))
    intro r
    split
    · split
      · apply Lockstep.andThen (Same.attempt (h.verifyEventAt_same _ _ _ _))
        intro r
        split <;> exact pure_same _
      · exact pure_same _
    · exact pure_same _
  · exact pure_same _

theorem refetchOutlier_same (value : Object) (server : ServerName) :
    Same R (refetchOutlier plat room id v value server) (refetchOutlier plat room id v value server) := by
  unfold refetchOutlier
  apply Lockstep.andThen (h.ask_same _)
  intro answer
  split
  · apply Lockstep.andThen (Same.attempt (h.genEventId_same _))
    intro r
    split
    · apply Lockstep.andThen (h.note_same _)
      intro _
      exact pure_same _
    · exact h.redactOutlier_same _
  · exact h.redactOutlier_same _

theorem recoverOutlier_same (origin : ServerName) (original value : Object) :
    Same R (recoverOutlier plat origin room id v original value)
      (recoverOutlier plat origin room id v original value) := by
  unfold recoverOutlier
  apply h.reuse.bind
  intro r r' hr
  rcases hr with rfl | ⟨⟨pdu, json⟩, ⟨pdu', json'⟩, e, rfl, rfl, he, he'⟩
  · cases r with
    | some known =>
      apply Lockstep.andThen (lift_same _)
      intro _
      apply Lockstep.andThen (h.note_same _)
      intro _
      exact pure_same _
    | none =>
      dsimp only
      split
      · exact h.redactOutlier_same _
      · split
        · exact h.redactOutlier_same _
        · apply Lockstep.andThen (h.hasPristineCopy_same _)
          intro pristine
          split
          · exact h.refetchOutlier_same _ _
          · exact h.redactOutlier_same _
  · -- content of another room is refused on both sides
    dsimp only at he he' ⊢
    rw [he, he']
    exact Lockstep.throw e

theorem verifyOutlier_same (origin : ServerName) (skipSigVerify : Bool) (original value : Object) :
    Same R (verifyOutlier plat origin room id v skipSigVerify original value)
      (verifyOutlier plat origin room id v skipSigVerify original value) := by
  unfold verifyOutlier
  split
  · exact pure_same _
  · split
    · exact pure_same _
    · apply Lockstep.andThen (Same.attempt (h.verifyEventAt_same _ _ _ _))
      intro r
      split
      · exact pure_same _
      · exact h.recoverOutlier_same _ _ _
      · apply Lockstep.andThen (h.add_same _)
        intro _
        apply Lockstep.andThen (h.mark_same _)
        intro _
        exact Lockstep.throw _

/-! ## Auth events -/

theorem rejectOutlier_same (code : RejectionCode) (e : HErr) :
    Lockstep R Q (rejectOutlier plat room id incoming code e : H A)
      (rejectOutlier plat room id incoming code e) := by
  unfold rejectOutlier
  apply Lockstep.andThen (h.mark_same _)
  intro _
  apply Lockstep.andThen (h.add_same _)
  intro _
  exact Lockstep.throw _

theorem rejectPoisoned_same (aid : EventId) :
    Lockstep R Q (rejectPoisoned plat room id incoming aid : H A) (rejectPoisoned plat room id incoming aid) := by
  unfold rejectPoisoned
  apply Lockstep.andThen (h.mark_same _)
  intro _
  apply Lockstep.andThen (h.add_same _)
  intro _
  apply Lockstep.andThen (h.mark_same _)
  intro _
  exact Lockstep.throw _

theorem deferOutlier_same (missing : List EventId) :
    Lockstep R Q (deferOutlier plat room id incoming missing : H A)
      (deferOutlier plat room id incoming missing) := by
  unfold deferOutlier
  apply Lockstep.andThen (h.mark_same _)
  intro _
  apply Lockstep.andThen (h.add_same _)
  intro _
  exact Lockstep.throw _

theorem localAuthEvent_same (found : AuthEvents) (aid : EventId) :
    Same R (localAuthEvent plat room id incoming found aid) (localAuthEvent plat room id incoming found aid) := by
  unfold localAuthEvent
  apply Lockstep.andThen (h.authEventPoisons_same aid)
  intro poisons
  split
  · exact h.rejectPoisoned_same aid
  · apply Lockstep.andThen (h.rejection_same fun r => r aid)
    intro code
    split
    · exact pure_same _
    · apply Lockstep.andThen (Lockstep.read fun s t hs => congrFun (h.inRoom s t hs) aid)
      intro auth
      split
      · exact pure_same _
      · apply Lockstep.andThen (lift_same _)
        intro _
        split
        · exact h.rejectOutlier_same _ _
        · exact pure_same _

theorem stillMissing_same (found : AuthEvents) (missing : List EventId) (aid : EventId) :
    Same R (stillMissing plat room id incoming found missing aid)
      (stillMissing plat room id incoming found missing aid) := by
  unfold stillMissing
  apply Lockstep.andThen (h.authEventPoisons_same aid)
  intro poisons
  split
  · exact pure_same _
  · split
    · exact h.rejectPoisoned_same aid
    · exact pure_same _

theorem refuseMissing_same (u : Unit) (mid : EventId) :
    Same R (refuseMissing plat room id incoming u mid) (refuseMissing plat room id incoming u mid) := by
  unfold refuseMissing
  apply Lockstep.andThen (h.authEventPoisons_same mid)
  intro poisons
  split
  · exact h.rejectOutlier_same _ _
  · exact pure_same _

theorem keyAuthEvent_same (found : AuthEvents) (byKey : List (TypeStateKey × Pdu)) (aid : EventId) :
    Same R (keyAuthEvent plat room id incoming found byKey aid)
      (keyAuthEvent plat room id incoming found byKey aid) := by
  unfold keyAuthEvent
  apply Lockstep.andThen (h.authEventPoisons_same aid)
  intro poisons
  split
  · exact h.rejectPoisoned_same aid
  · split
    · exact h.rejectOutlier_same _ _
    · apply Lockstep.andThen (lift_same _)
      intro _
      split
      · exact h.rejectOutlier_same _ _
      · split
        · exact h.rejectOutlier_same _ _
        · exact pure_same _

/-! ## Auth chains -/

omit h in
theorem readAuthChain_answer (chain : List (EventId × (Object × Pdu))) (raw : RawPdu) (s : Server) :
    ((readAuthChain plat room v chain raw).exec s).1 = .ok (enterAuthChain plat room v chain raw) := by
  cases raw with
  | none => rfl
  | some value =>
    simp only [readAuthChain, genEventIdCanonicalJson, enterAuthChain]
    cases plat.genEventId v value with
    | error e => rfl
    | ok eid =>
      have hgen : ((note plat (.received room v eid value) >>= fun _ => pure (eid, value) : H _).exec s).1 =
        .ok (eid, value) := rfl
      rw [Call.exec_bind, Call.exec_attempt, hgen]
      dsimp only
      cases fromIdVal plat eid value room with
      | error e => simp only [Call.exec_pure]
      | ok pdu =>
        dsimp only
        cases checkRoomId plat room pdu <;> simp only [Call.exec_pure]

omit h in
theorem readAuthChains_answer (chain : List (EventId × (Object × Pdu))) (raws : List RawPdu) (s : Server) :
    ((raws.foldlM (readAuthChain plat room v) chain).exec s).1 =
      .ok (raws.foldl (enterAuthChain plat room v) chain) := by
  induction raws generalizing chain s with
  | nil => rfl
  | cons raw raws ih =>
    have hone : ((readAuthChain plat room v chain raw).exec s).1 = _ := readAuthChain_answer chain raw s
    rcases hp : (readAuthChain plat room v chain raw).exec s with ⟨r, s₁⟩
    rw [hp] at hone
    obtain rfl : r = _ := hone
    rw [List.foldlM_cons, Call.exec_bind, hp]
    exact ih _ s₁

theorem readAuthChain_same (chain : List (EventId × (Object × Pdu))) (raw : RawPdu) :
    Same R (readAuthChain plat room v chain raw) (readAuthChain plat room v chain raw) := by
  unfold readAuthChain
  apply Lockstep.andThen (Same.attempt (h.genEventId_same raw))
  intro r
  split
  · exact pure_same _
  · split
    · exact pure_same _
    · split <;> exact pure_same _

section
variable {recur recur' : EventId → Object → H (Pdu × Object)}

theorem handleAuthChain_same {chain : List (EventId × (Object × Pdu))} {eid : EventId}
    (hrec : ∀ value pdu, List.lookup eid chain = some (value, pdu) → Same R (recur eid value) (recur' eid value))
    (found : AuthEvents) :
    Same R (handleAuthChain plat recur room id incoming chain found eid)
      (handleAuthChain plat recur' room id incoming chain found eid) := by
  unfold handleAuthChain
  cases hl : List.lookup eid chain with
  | none => exact pure_same _
  | some entry =>
    dsimp only
    split
    · exact pure_same _
    · apply Lockstep.andThen (Same.attempt (hrec entry.1 entry.2 hl))
      intro r
      split
      · exact pure_same _
      · split
        · exact h.rejectOutlier_same _ _
        · exact pure_same _

variable {origin : ServerName}

theorem fetchAuthChain_same
    (hrec : ∀ eid other, Chained plat room id R origin v eid other → Same R (recur eid other) (recur' eid other))
    (found : AuthEvents) :
    Same R (fetchAuthChain plat recur origin room id v incoming found)
      (fetchAuthChain plat recur' origin room id v incoming found) := by
  unfold fetchAuthChain
  apply (Same.answers (h.ask_same _)).bind
  rintro answer _ ⟨rfl, hasked⟩
  cases answer with
  | none => exact pure_same _
  | some raws =>
    dsimp only
    apply (Same.answers (Same.foldlM raws fun chain raw _ => h.readAuthChain_same chain raw)).bind
    rintro chain _ ⟨rfl, s, t, hs, hread⟩
    obtain rfl : authChain plat room v raws = chain := by
      rw [readAuthChains_answer] at hread
      exact Except.ok.inj hread
    apply (Same.answers (h.ask_same _)).bind
    rintro degrees _ ⟨rfl, hdegrees⟩
    apply (Same.answers (h.ask_same _)).bind
    rintro order _ ⟨rfl, horder⟩
    apply Same.foldlM
    intro found eid heid
    apply h.handleAuthChain_same
    intro value pdu hl
    exact hrec eid value ⟨hasked, hdegrees, horder, hl, List.mem_dedup.1 heid⟩

variable {stage : AuthRecoveryStage}

theorem resolveMissing_same (hrec : stage = .afterStateIds → ∀ eid other, Chained plat room id R
    origin v eid other →
      Same R (recur eid other) (recur' eid other))
    (pdu : Pdu) (missing : List EventId) (found : AuthEvents) :
    Same R (resolveMissingOutlierAuthEvents plat recur origin room id v pdu incoming missing found stage)
      (resolveMissingOutlierAuthEvents plat recur' origin room id v pdu incoming missing found stage) := by
  unfold resolveMissingOutlierAuthEvents
  apply Lockstep.andThen (Same.foldlM missing fun u mid _ => h.refuseMissing_same u mid)
  intro _
  split
  · exact h.deferOutlier_same _
  · rename_i hinline
    have hlate : stage = .afterStateIds := by
      cases stage with
      | beforeStateIds => simp at hinline
      | afterStateIds => rfl
    apply Lockstep.andThen (h.fetchAuthChain_same (hrec hlate) found)
    intro found
    apply Lockstep.andThen (Same.foldlM _ fun missing aid _ => h.stillMissing_same found missing aid)
    intro still
    split
    · exact pure_same _
    · exact h.deferOutlier_same _

theorem completeAuthEvents_same {pdu : Pdu} {found : AuthEvents}
    (hrec : (∃ aid ∈ pdu.authEvents, found.get aid = none) → stage = .afterStateIds →
      ∀ eid other, Chained plat room id R origin v eid other → Same R (recur eid other) (recur' eid other)) :
    Same R (completeAuthEvents plat recur origin room id v pdu incoming found stage)
      (completeAuthEvents plat recur' origin room id v pdu incoming found stage) := by
  unfold completeAuthEvents
  dsimp only
  split
  · exact pure_same _
  · rename_i hmissing
    apply h.resolveMissing_same
    apply hrec
    rw [List.isEmpty_iff] at hmissing
    obtain ⟨aid, haid⟩ := List.exists_mem_of_ne_nil _ hmissing
    obtain ⟨haid, hnone⟩ := List.mem_filter.1 haid
    exact ⟨aid, haid, Option.isNone_iff_eq_none.1 hnone⟩

theorem authorizeOutlier_same
    (hrec : ∀ eid other, Lacks plat room id R origin v stage incoming eid other →
      Same R (recur eid other) (recur' eid other))
    (create : Option Pdu) (how : How) (value : Object) :
    Same R (authorizeOutlier plat recur origin create id room v stage how value incoming)
      (authorizeOutlier plat recur' origin create id room v stage how value incoming) := by
  unfold authorizeOutlier
  cases hparsed : fromIdVal plat id incoming room with
  | error e =>
    apply Lockstep.andThen (h.mark_same _)
    intro _
    exact Lockstep.throw _
  | ok pdu =>
    dsimp only
    apply (Same.answers (lift_same _)).bind
    rintro _ _ ⟨rfl, s, t, -, hroom⟩
    have hbelongs : checkRoomId plat room pdu = .ok () := by
      cases hc : checkRoomId plat room pdu with
      | ok u => rfl
      | error e =>
        rw [hc] at hroom
        cases hroom
    apply (Same.answers (Same.foldlM _ fun found aid _ => h.localAuthEvent_same found aid)).bind
    rintro found _ ⟨rfl, hlooked⟩
    have hcomplete : Same R (completeAuthEvents plat recur origin room id v pdu incoming found stage)
        (completeAuthEvents plat recur' origin room id v pdu incoming found stage) := by
      apply h.completeAuthEvents_same
      intro hlacks hlate eid other hchain
      exact hrec eid other ⟨hparsed, hbelongs, hlooked, hlacks, hlate, hchain⟩
    apply Lockstep.andThen hcomplete
    intro found
    apply Lockstep.andThen (Same.foldlM _ fun byKey aid _ => h.keyAuthEvent_same found byKey aid)
    intro byKey
    split
    · exact h.rejectOutlier_same _ _
    · split
      · exact h.rejectOutlier_same _ _
      · apply Lockstep.andThen (h.add_same _)
        intro _
        apply Lockstep.andThen (h.write_same (.accept how value incoming))
        intro _
        exact pure_same _

theorem outlierBody_same {create : Option Pdu} {roomVersion : RoomVersionId} {value : Object} {skipSigVerify : Bool}
    (hrec : ∀ eid other, Chases plat room id R origin create roomVersion stage value skipSigVerify eid other →
      Same R (recur eid other) (recur' eid other)) :
    Same R (outlierBody plat recur origin create id room value skipSigVerify roomVersion stage)
      (outlierBody plat recur' origin create id room value skipSigVerify roomVersion stage) := by
  unfold outlierBody
  apply Lockstep.andThen (h.known value)
  intro known
  split
  · exact pure_same _
  · split
    · apply Lockstep.andThen (h.add_same _)
      intro _
      apply Lockstep.andThen (h.mark_same _)
      intro _
      exact Lockstep.throw _
    · rename_i hfits
      cases hversion : outlierVersion plat create roomVersion with
      | error e => exact Lockstep.throw e
      | ok v =>
        simp only [lift, pure_bind]
        apply (Same.answers (h.verifyOutlier_same _ _ _ _)).bind
        rintro checked _ ⟨rfl, hchecked⟩
        cases checked with
        | answer pdu json => exact pure_same _
        | go how content =>
          dsimp only
          apply h.authorizeOutlier_same
          intro eid other hlacks
          exact hrec eid other ⟨by simpa using hfits, hversion, hchecked, hlacks⟩

end

end Handles

/-- A server that what is written for an event keeps like this runs the same as itself. -/
theorem handles_of_kept {P : Server → Prop}
    (hP : ∀ (w : Write) s, w.Own room id → P s → P (w.apply plat s)) :
    Handles plat room id fun s t => s = t ∧ P s where
  world := by
    rintro s _ ⟨rfl, -⟩
    rfl
  rejection := by
    rintro s _ ⟨rfl, -⟩
    rfl
  inRoom := by
    rintro s _ ⟨rfl, -⟩
    rfl
  writes := by
    rintro w s _ hw ⟨rfl, hs⟩
    exact ⟨rfl, hP w s hw hs⟩
  known := by
    intro value
    unfold knownOutlier
    refine Lockstep.andThen (Lockstep.act ?_) fun answer => ?_
    · rintro s _ ⟨rfl, hs⟩
      cases s.eventidPdu id with
      | none => exact ⟨⟨rfl, hs⟩, .ok rfl⟩
      | some json => exact ⟨⟨rfl, hP _ s (.note _) hs⟩, .ok rfl⟩
    · split
      · exact pure_same _
      · split
        · exact pure_same _
        · apply Lockstep.act
          rintro s _ ⟨rfl, hs⟩
          split
          · exact ⟨⟨rfl, hP _ _ (.mark _) (hP _ s .retry hs)⟩, .ok rfl⟩
          · split
            · exact ⟨⟨rfl, hs⟩, .error _⟩
            · exact ⟨⟨rfl, hP _ s (.note _) hs⟩, .ok rfl⟩
  reuse := by
    apply Lockstep.act
    rintro s _ ⟨rfl, hs⟩
    split
    · exact ⟨⟨rfl, hP _ s (.note _) hs⟩, .ok (.inl rfl)⟩
    · exact ⟨⟨rfl, hs⟩, .ok (.inl rfl)⟩

end

end Congruent
