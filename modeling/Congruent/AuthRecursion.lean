import Congruent.Federation
import Congruent.OutlierLockstep
import Mathlib.Order.Filter.AtTopBot.Basic
import Mathlib.Order.Filter.Finite
import Mathlib.Order.WellFounded

/-!
# How deep auth chains nest

`handle_outlier_pdu` handles the events of a fetched auth chain like events of their own,
and these fetch auth chains in turn. Nothing is recorded of the events in progress: the
nesting ends when the peer's answers do not lead on for ever.
-/

namespace Congruent

open H
open Call (Answers Lockstep Same)

/-- What a call and those nested in it have in common. -/
structure Exchange where
  plat : Platform
  origin : ServerName
  create : Option Pdu
  room : RoomId
  roomVersion : RoomVersionId
  stage : AuthRecoveryStage

/-- One call of `handle_outlier_pdu`. -/
structure Handling where
  id : EventId
  value : Object
  skipSigVerify : Bool

namespace Exchange

variable (x : Exchange)

/-! ## Nested calls -/

/-- A call, with what it does for the events of an auth chain. -/
def body (recur : EventId → Object → H (Pdu × Object)) (c : Handling) : H (Pdu × Object) :=
  outlierBody x.plat recur x.origin x.create c.id x.room c.value c.skipSigVerify x.roomVersion x.stage

/-- Calls `n` levels deep, and `deeper` below them. -/
def nested (deeper : EventId → Object → H (Pdu × Object)) : Nat → EventId → Object → H (Pdu × Object)
  | 0 => deeper
  | n + 1 => fun eid value => x.body (nested deeper n) ⟨eid, value, false⟩

def handle (n : Nat) (c : Handling) : H (Pdu × Object) :=
  handleOutlierPdu x.plat x.origin x.create x.room x.roomVersion x.stage n c.id c.value c.skipSigVerify

/-- No call is nested deeper than `n` levels: whatever it would do, nothing is different. -/
def Within (n : Nat) (c : Handling) (s : Server) : Prop :=
  ∀ deeper, (x.body (x.nested deeper n) c).exec s = (x.handle (n + 1) c).exec s

/-- The calls that a call leads to are nested to a bounded depth; each makes finitely many. -/
def Ends (c : Handling) (s : Server) : Prop := ∃ n, x.Within n c s

/-! ## What leads on -/

section
variable (s : Server)

/-- A stored event whose handling only reports its verdict. -/
def Settled (id : EventId) : Prop :=
  (∃ json pdu, s.eventidPdu id = some json ∧ fromIdVal x.plat id json x.room = .ok pdu) ∧
    (s.rejection id).any RejectionCode.isRetryable = false

def Held (id : EventId) : Prop :=
  x.Settled s id ∧ s.rejection id = none ∧ (s.getPduInRoom x.plat x.room id).isSome

def Condemned (id : EventId) : Prop :=
  x.Settled s id ∧ ∃ code, s.rejection id = some code ∧ code ≠ .authCheckFailed

/-- The content an event may be checked with, after its signatures. -/
inductive Content (v : RoomVersionId) (c : Handling) : Object → Prop
  | unchecked (h : c.skipSigVerify = true ∨ c.id ∈ x.plat.bypassedSignatureEvents) :
      Content v c (c.value.remove "unsigned")
  | valid (k : Nat) (h : (s.world k).verify v (c.value.remove "unsigned") = .ok .all) :
      Content v c (c.value.remove "unsigned")
  | redacted (k : Nat) (redacted : Object) (h : (s.world k).verify v (c.value.remove "unsigned") = .ok .signatures)
      (hr : x.plat.redact v (c.value.remove "unsigned") = .ok redacted) : Content v c redacted
  | copy (k k' : Nat) (server : ServerName) (clean : Object) (rest : List RawPdu)
      (h : (s.world k).verify v (c.value.remove "unsigned") = .ok .signatures)
      (hg : (s.world k').getEvent server c.id = some (some clean :: rest)) : Content v c clean

/-- A call may lead to another: the event is not settled, passes the checks up to its auth
events, none of which condemns it and one of which is not held, and the other event is in
the peer's answer about it. -/
inductive LeadsTo (c d : Handling) : Prop
  | intro {v : RoomVersionId} {content : Object} {pdu other : Pdu} {raws : List RawPdu} {k k' : Nat}
    (late : x.stage = .afterStateIds)
    (pending : ¬ x.Settled s c.id)
    (fits : pduFits x.plat c.value = true)
    (version : outlierVersion x.plat x.create x.roomVersion = .ok v)
    (goes : x.Content s v c content)
    (parsed : fromIdVal x.plat c.id (attach c.id (c.value.get "unsigned") content) x.room = .ok pdu)
    (belongs : checkRoomId x.plat x.room pdu = .ok ())
    (clean : ∀ aid ∈ pdu.authEvents, ¬ x.Condemned s aid)
    (lacks : ∃ aid ∈ pdu.authEvents, ¬ x.Held s aid)
    (asked : (s.world s.clock).eventAuth x.origin x.room c.id = some raws)
    (entry : List.lookup d.id (authChain x.plat x.room v raws) = some (d.value, other))
    (sorted : d.id ∈ sortedAuthChain (authChain x.plat x.room v raws)
      (reorder ((authChain x.plat x.room v raws).map (·.1))
        ((s.world k).order (authChain x.plat x.room v raws).length))
      (reorder ((authChain x.plat x.room v raws).map (·.1))
        ((s.world k').order (authChain x.plat x.room v raws).length)))
    (unskipped : d.skipSigVerify = false)

end

/-! ## What a run keeps -/

/-- What stays as it was in `s₀` while events are handled. -/
structure Extends (s₀ s : Server) : Prop where
  world : s.world = s₀.world
  stored : ∀ y, x.Settled s₀ y → s.eventidPdu y = s₀.eventidPdu y
  verdict : ∀ y, x.Settled s₀ y → s.rejection y = s₀.rejection y

/-- The same server, on which what was settled is unchanged. -/
abbrev Alike (s₀ s t : Server) : Prop := s = t ∧ x.Extends s₀ s

variable {x : Exchange} {s₀ s : Server} {c d : Handling} {id : EventId}

theorem Extends.refl (s : Server) : x.Extends s s := ⟨rfl, fun _ _ => rfl, fun _ _ => rfl⟩

theorem Extends.setRejection (h : x.Extends s₀ s) (hid : ¬ x.Settled s₀ id) (code : Option RejectionCode) :
    x.Extends s₀ (s.setRejection id code) where
  world := h.world
  stored := h.stored
  verdict y hy := by
    have hne : y ≠ id := by
      rintro rfl
      exact hid hy
    exact (Function.update_of_ne hne _ _).trans (h.verdict y hy)

theorem Extends.write (h : x.Extends s₀ s) (hid : ¬ x.Settled s₀ id) {w : Write} (hw : w.Own x.room id) :
    x.Extends s₀ (w.apply x.plat s) := by
  cases hw with
  | tick => exact ⟨h.world, h.stored, h.verdict⟩
  | note m => exact ⟨h.world, h.stored, h.verdict⟩
  | add json =>
    simp only [Write.apply, Server.addPduOutlier]
    split
    · exact h
    · refine ⟨h.world, fun y hy => ?_, h.verdict⟩
      have hne : y ≠ id := by
        rintro rfl
        exact hid hy
      exact (Function.update_of_ne hne _ _).trans (h.stored y hy)
  | mark code =>
    simp only [Write.apply, Server.markEventRejected]
    split
    · exact h
    · exact h.setRejection hid _
  | retry => exact h.setRejection hid none
  | accept how value json =>
    have hset := h.setRejection hid none
    exact ⟨hset.world, hset.stored, hset.verdict⟩

theorem handles (hid : ¬ x.Settled s₀ id) : Handles x.plat x.room id (x.Alike s₀) :=
  handles_of_kept fun _ _ hw hs => hs.write hid hw

/-! ## What a call leads to -/

section
variable {v : RoomVersionId} {how : How} {value content : Object} (h : Handles x.plat x.room id (x.Alike s₀))

include h

theorem redactOutlier_content (ha : Answers (x.Alike s₀) (redactOutlier x.plat x.room id v value)
    (.go how content)) :
    x.plat.redact v value = .ok content := by
  unfold redactOutlier at ha
  cases hr : x.plat.redact v value with
  | ok redacted =>
    rw [hr] at ha
    cases ha.pure
    rfl
  | error e =>
    rw [hr] at ha
    obtain ⟨_, -, ha⟩ := ha.bind (h.add_same _)
    obtain ⟨_, -, ha⟩ := ha.bind (h.mark_same _)
    exact ha.throw.elim

theorem refetchOutlier_content {server : ServerName}
    (ha : Answers (x.Alike s₀) (refetchOutlier x.plat x.room id v value server) (.go how content)) :
    x.plat.redact v value = .ok content ∨
      ∃ k rest, (s₀.world k).getEvent server id = some (some content :: rest) := by
  unfold refetchOutlier at ha
  obtain ⟨answer, ⟨s, _, ⟨rfl, hs⟩, hasked⟩, ha⟩ := ha.bind (h.ask_same _)
  have hanswer : (s₀.world s.clock).getEvent server id = answer := by
    rw [← hs.world]
    exact Except.ok.inj hasked
  split at ha
  · rename_i raw rest
    obtain ⟨r, hr, ha⟩ := ha.bind (Same.attempt (h.genEventId_same _))
    split at ha
    · rename_i eid clean
      obtain ⟨_, -, ha⟩ := ha.bind (h.note_same _)
      cases ha.pure
      right
      refine ⟨s.clock, rest, hanswer.trans ?_⟩
      obtain ⟨_, _, -, hgen⟩ := hr.attempt
      cases raw with
      | none => cases hgen
      | some json =>
        simp only [genEventIdCanonicalJson] at hgen
        cases hid : x.plat.genEventId v json with
        | error e =>
          rw [hid] at hgen
          cases hgen
        | ok eid' =>
          rw [hid] at hgen
          cases hgen
          rfl
    · exact .inl (redactOutlier_content h ha)
  · exact .inl (redactOutlier_content h ha)

theorem recoverOutlier_content {original : Object}
    (ha : Answers (x.Alike s₀) (recoverOutlier x.plat x.origin x.room id v original value) (.go how content)) :
    x.plat.redact v value = .ok content ∨
      ∃ k server rest, (s₀.world k).getEvent server id = some (some content :: rest) := by
  unfold recoverOutlier at ha
  obtain ⟨known, -, ha⟩ := ha.bind h.reuse
  cases known with
  | some known =>
    obtain ⟨_, -, ha⟩ := ha.bind (lift_same _)
    obtain ⟨_, -, ha⟩ := ha.bind (h.note_same _)
    cases ha.pure
  | none =>
    dsimp only at ha
    split at ha
    · exact .inl (redactOutlier_content h ha)
    · rename_i server _
      split at ha
      · exact .inl (redactOutlier_content h ha)
      · obtain ⟨pristine, -, ha⟩ := ha.bind (h.hasPristineCopy_same _)
        split at ha
        · rcases refetchOutlier_content h ha with hr | ⟨k, rest, hg⟩
          · exact .inl hr
          · exact .inr ⟨k, server, rest, hg⟩
        · exact .inl (redactOutlier_content h ha)

end

theorem verifyOutlier_content {v : RoomVersionId} {how : How} {content : Object}
    (h : Handles x.plat x.room c.id (x.Alike s₀))
    (ha : Answers (x.Alike s₀) (verifyOutlier x.plat x.origin x.room c.id v c.skipSigVerify c.value
      (c.value.remove "unsigned")) (.go how content)) : x.Content s₀ v c content := by
  unfold verifyOutlier at ha
  split at ha
  · rename_i hskip
    cases ha.pure
    exact .unchecked (.inl hskip)
  · split at ha
    · rename_i hbypassed
      cases ha.pure
      exact .unchecked (.inr (by simpa using hbypassed))
    · obtain ⟨r, ⟨s, _, ⟨rfl, hs⟩, hverify⟩, ha⟩ := ha.bind (Same.attempt (h.verifyEventAt_same _ _ _ _))
      have hworld : ∀ result, r = .ok result → (s₀.world s.clock).verify v (c.value.remove "unsigned") =
          .ok result := by
        rintro result rfl
        rw [← hs.world]
        rw [Call.exec_attempt] at hverify
        simp only [verifyEventAt, Call.exec_act] at hverify
        cases hr : (s.world s.clock).verify v (c.value.remove "unsigned") with
        | ok found =>
          rw [hr] at hverify
          cases hverify
          rfl
        | error e =>
          rw [hr] at hverify
          cases hverify
      split at ha
      · cases ha.pure
        exact .valid _ (hworld _ rfl)
      · rcases recoverOutlier_content h ha with hr | ⟨k, server, rest, hg⟩
        · exact .redacted _ _ (hworld _ rfl) hr
        · exact .copy _ k server _ rest (hworld _ rfl) hg
      · obtain ⟨_, -, ha⟩ := ha.bind (h.add_same _)
        obtain ⟨_, -, ha⟩ := ha.bind (h.mark_same _)
        exact ha.throw.elim

section
variable {incoming : Object} {aid : EventId} {found found' : AuthEvents} (h : Handles x.plat x.room id (x.Alike s₀))

include h

theorem poisons_of_condemned {b : Bool} (ha : Answers (x.Alike s₀) (authEventPoisons x.plat aid x.room) b)
    (hc : x.Condemned s₀ aid) : b = true := by
  obtain ⟨hsettled, code, hcode, hne⟩ := hc
  have hfinal : code.isRetryable = false := by
    have := hsettled.2
    simpa [hcode] using this
  unfold authEventPoisons at ha
  obtain ⟨final, ⟨s, _, ⟨rfl, hs⟩, hread⟩, ha⟩ :=
    ha.bind (h.rejection_same fun r => (r aid).any fun code => !code.isRetryable)
  obtain rfl : s.isEventPermanentlyRejected aid = final := Except.ok.inj hread
  have hp : s.isEventPermanentlyRejected aid = true := by
    unfold Server.isEventPermanentlyRejected
    rw [hs.verdict aid hsettled, hcode]
    simp [hfinal]
  rw [hp] at ha
  obtain ⟨code', ⟨s, _, ⟨rfl, hs⟩, hread⟩, ha⟩ := ha.bind (h.rejection_same fun r => r aid)
  obtain rfl : s.rejection aid = code' := Except.ok.inj hread
  rw [hs.verdict aid hsettled, hcode, if_neg (by simpa using hne)] at ha
  exact ha.pure.symm

/-- An auth event that is held is found, and one that condemns ends the handling. -/
theorem localAuthEvent_found (ha : Answers (x.Alike s₀)
    (localAuthEvent x.plat x.room id incoming found aid) found') :
    ¬ x.Condemned s₀ aid ∧ (x.Held s₀ aid → (found'.get aid).isSome) ∧
      ∀ y, (found.get y).isSome → (found'.get y).isSome := by
  unfold localAuthEvent at ha
  obtain ⟨poisons, hpoisons, ha⟩ := ha.bind (h.authEventPoisons_same aid)
  have hcond : x.Condemned s₀ aid → poisons = true := poisons_of_condemned h hpoisons
  cases poisons with
  | true =>
    obtain ⟨_, -, ha⟩ := ha.bind (h.mark_same _)
    obtain ⟨_, -, ha⟩ := ha.bind (h.add_same _)
    obtain ⟨_, -, ha⟩ := ha.bind (h.mark_same _)
    exact ha.throw.elim
  | false =>
    refine ⟨fun hc => (by cases hcond hc), ?_⟩
    obtain ⟨code, ⟨s, _, ⟨rfl, hs⟩, hread⟩, ha⟩ := ha.bind (h.rejection_same fun r => r aid)
    obtain rfl : s.rejection aid = code := Except.ok.inj hread
    split at ha
    · rename_i hmissing
      cases ha.pure
      refine ⟨fun hheld => ?_, fun _ hy => hy⟩
      rw [hs.verdict aid hheld.1, hheld.2.1] at hmissing
      cases hmissing
    · obtain ⟨auth, ⟨s, _, ⟨rfl, hs⟩, hread⟩, ha⟩ :=
        ha.bind (Lockstep.read fun s t hst => congrFun (h.inRoom s t hst) aid)
      obtain rfl : s.getPduInRoom x.plat x.room aid = auth := Except.ok.inj hread
      split at ha
      · rename_i hnone
        cases ha.pure
        refine ⟨fun hheld => ?_, fun _ hy => hy⟩
        have hsome := hheld.2.2
        unfold Server.getPduInRoom Server.getPdu at hnone hsome
        rw [← hs.stored aid hheld.1, hnone] at hsome
        cases hsome
      · rename_i auth _
        obtain ⟨_, -, ha⟩ := ha.bind (lift_same _)
        split at ha
        · obtain ⟨_, -, ha⟩ := ha.bind (h.mark_same _)
          obtain ⟨_, -, ha⟩ := ha.bind (h.add_same _)
          exact ha.throw.elim
        · cases ha.pure
          refine ⟨fun _ => by simp [AuthEvents.get], fun y hy => ?_⟩
          unfold AuthEvents.get at hy ⊢
          rw [List.lookup_cons]
          split
          · rfl
          · exact hy

theorem localAuthEvents_found {aids : List EventId}
    (ha : Answers (x.Alike s₀) (aids.foldlM (localAuthEvent x.plat x.room id incoming) found) found') :
    (∀ aid ∈ aids, ¬ x.Condemned s₀ aid) ∧ (∀ aid ∈ aids, x.Held s₀ aid → (found'.get aid).isSome) ∧
      ∀ y, (found.get y).isSome → (found'.get y).isSome := by
  induction aids generalizing found with
  | nil =>
    cases ha.pure
    simp
  | cons aid aids ih =>
    rw [List.foldlM_cons] at ha
    obtain ⟨mid, hmid, ha⟩ := ha.bind (h.localAuthEvent_same found aid)
    obtain ⟨hclean, hheld, hkept⟩ := localAuthEvent_found h hmid
    obtain ⟨hcleans, hhelds, hkepts⟩ := ih ha
    simp only [List.forall_mem_cons]
    exact ⟨⟨hclean, hcleans⟩, ⟨fun hh => hkepts aid (hheld hh), hhelds⟩, fun y hy => hkepts y (hkept y hy)⟩

end

theorem leadsTo_of_chases {eid : EventId} {other : Object}
    (hpeer : ∀ k id, (s₀.world k).eventAuth x.origin x.room id = (s₀.world s₀.clock).eventAuth x.origin x.room id)
    (hid : ¬ x.Settled s₀ c.id)
    (ha : Chases x.plat x.room c.id (x.Alike s₀) x.origin x.create x.roomVersion x.stage c.value c.skipSigVerify eid
      other) :
    x.LeadsTo s₀ c ⟨eid, other, false⟩ := by
  have h := handles hid
  obtain ⟨fits, version, checked, ⟨parsed, belongs, looked, ⟨aid, haid, hnone⟩, late, chained⟩⟩ := ha
  obtain ⟨asked, counted, read, entry, sorted⟩ := chained
  obtain ⟨hclean, hheld, -⟩ := localAuthEvents_found h looked
  obtain ⟨s, _, ⟨rfl, hs⟩, hasked⟩ := asked
  obtain ⟨s₁, _, ⟨rfl, hs₁⟩, hcounted⟩ := counted
  obtain ⟨s₂, _, ⟨rfl, hs₂⟩, hread⟩ := read
  have hlacks : ¬ x.Held s₀ aid := by
    intro hh
    have hsome := hheld aid haid hh
    rw [hnone] at hsome
    cases hsome
  have hanswer : (s.world s.clock).eventAuth x.origin x.room c.id = some _ := Except.ok.inj hasked
  rw [hs.world, hpeer] at hanswer
  obtain rfl := Except.ok.inj hcounted
  obtain rfl := Except.ok.inj hread
  rw [hs₁.world, hs₂.world] at sorted
  exact ⟨late, hid, fits, version, verifyOutlier_content h checked, parsed, belongs, hclean, ⟨aid, haid, hlacks⟩,
    hanswer, entry, sorted, rfl⟩

/-! ## How deep calls are nested -/

theorem knownOutlier_settled (hid : x.Settled s₀ id) (value : Object) :
    Lockstep (x.Alike s₀) (fun r r' => r = r' ∧ r.isSome) (knownOutlier x.plat x.room id value)
      (knownOutlier x.plat x.room id value) := by
  rintro s _ ⟨rfl, hs⟩
  obtain ⟨⟨json, pdu, hjson, hpdu⟩, hfinal⟩ := hid
  have hstored : s.eventidPdu id = some json := (hs.stored id ⟨⟨json, pdu, hjson, hpdu⟩, hfinal⟩).trans hjson
  have hverdict : (s.rejection id).any RejectionCode.isRetryable = false := by
    rw [hs.verdict id ⟨⟨json, pdu, hjson, hpdu⟩, hfinal⟩]
    exact hfinal
  have hnote : ∀ m, x.Extends s₀ ((Write.note m).apply x.plat s) := fun m => ⟨hs.world, hs.stored, hs.verdict⟩
  have hrun : (knownOutlier x.plat x.room id value).exec s =
      (knownVerdict x.plat x.room id value pdu json).exec
        ((Write.note (.readBack x.room id json)).apply x.plat s) := by
    unfold knownOutlier
    rw [Call.exec_bind]
    simp only [getOutlierPduJson, Call.exec_act, hstored, hpdu]
  have hretry : (((Write.note (.readBack x.room id json)).apply x.plat s).rejection id).any
      RejectionCode.isRetryable = false := hverdict
  rw [hrun]
  simp only [knownVerdict, Call.exec_act, hretry, Bool.false_eq_true, ↓reduceIte]
  split
  · exact ⟨⟨rfl, hnote _⟩, .error _⟩
  · exact ⟨⟨rfl, hs.world, hs.stored, hs.verdict⟩, .ok ⟨rfl, rfl⟩⟩

theorem body_settled (hid : x.Settled s₀ c.id) (recur recur' : EventId → Object → H (Pdu × Object)) :
    Same (x.Alike s₀) (x.body recur c) (x.body recur' c) := by
  unfold body outlierBody
  apply (knownOutlier_settled hid c.value).bind
  rintro known _ ⟨rfl, hsome⟩
  cases known with
  | none => cases hsome
  | some answer => exact pure_same _

/-- The call runs the same whatever is done below `n` levels. -/
def Closed (x : Exchange) (s₀ : Server) (c : Handling) (n : Nat) : Prop :=
  ∀ deeper deeper', Same (x.Alike s₀) (x.body (x.nested deeper n) c) (x.body (x.nested deeper' n) c)

theorem finite_leadsTo (x : Exchange) (s₀ : Server) (c : Handling) : {d | x.LeadsTo s₀ c d}.Finite := by
  cases hv : outlierVersion x.plat x.create x.roomVersion with
  | error e =>
    apply Set.Finite.subset Set.finite_empty
    rintro d ⟨_, _, _, version, _⟩
    rw [hv] at version
    cases version
  | ok v =>
    cases hr : (s₀.world s₀.clock).eventAuth x.origin x.room c.id with
    | none =>
      apply Set.Finite.subset Set.finite_empty
      rintro d ⟨_, _, _, _, _, _, _, _, _, asked, _⟩
      rw [hr] at asked
      cases asked
    | some raws =>
      apply ((authChain x.plat x.room v raws).map fun p => Handling.mk p.1 p.2.1 false).finite_toSet.subset
      rintro ⟨eid, value, skip⟩ ⟨_, _, _, version, _, _, _, _, _, asked, entry, _, unskipped⟩
      rw [hv] at version
      rw [hr] at asked
      cases version
      cases asked
      cases unskipped
      exact List.mem_map.2 ⟨_, List.mem_of_lookup entry, rfl⟩

section
variable (hpeer : ∀ k id, (s₀.world k).eventAuth x.origin x.room id =
  (s₀.world s₀.clock).eventAuth x.origin x.room id)

include hpeer

theorem closed_succ {n : Nat} (h : ∀ d, x.LeadsTo s₀ c d → x.Closed s₀ d n) : x.Closed s₀ c (n + 1) := by
  intro deeper deeper'
  by_cases hid : x.Settled s₀ c.id
  · exact body_settled hid _ _
  · apply (handles hid).outlierBody_same
    intro eid other hchases
    exact h _ (leadsTo_of_chases hpeer hid hchases) deeper deeper'

theorem closed_of_acc (h : Acc (fun d c => x.LeadsTo s₀ c d) c) : ∀ᶠ n in Filter.atTop, x.Closed s₀ c n := by
  induction h with
  | intro c _ ih =>
    have hall := (Filter.eventually_all_finite (finite_leadsTo x s₀ c)).2 ih
    obtain ⟨N, hN⟩ := Filter.eventually_atTop.1 hall
    refine Filter.eventually_atTop.2 ⟨N + 1, fun n hn => ?_⟩
    obtain ⟨m, rfl⟩ : ∃ m, n = m + 1 := ⟨n - 1, by omega⟩
    exact closed_succ hpeer (hN m (by omega))

end

/-- What is done below the last level of `handle_outlier_pdu`. -/
def tooDeep (_ : EventId) (_ : Object) : H (Pdu × Object) := throw (.database "auth chain nested too deeply")

theorem nested_tooDeep (x : Exchange) (n : Nat) :
    x.nested tooDeep n = fun eid value => x.handle n ⟨eid, value, false⟩ := by
  induction n with
  | zero => rfl
  | succ n ih =>
    funext eid value
    show x.body (x.nested tooDeep n) ⟨eid, value, false⟩ =
      x.body (fun eid value => x.handle n ⟨eid, value, false⟩) _
    rw [ih]

theorem handle_succ (x : Exchange) (n : Nat) (c : Handling) : x.handle (n + 1) c =
    x.body (x.nested tooDeep n) c := by
  rw [nested_tooDeep]
  rfl

end Exchange

/-! ## A peer that has the missing auth event -/

def orphanEvent : Object := wireEvent "x" "m.room.topic" "@u:b" (some "") [] ["$c", "$z"] []

def citedEvent : Object := wireEvent "z" "m.room.name" "@u:b" (some "") [] ["$c"] []

def orphanExchange : Exchange := ⟨.plain, "b", none, "!r:a", .V11, .afterStateIds⟩

def orphanHandling : Handling := ⟨"$x", orphanEvent, false⟩

/-- A server, at some moment, whose peer answers these events. -/
def Server.asking (answer : EventId → Option (List RawPdu)) (clock : Nat) (log : List Mark) : Server :=
  { Server.plain fun _ => { World.plain with eventAuth := fun _ _ id => answer id } with
    clock := clock, log := log }

theorem exec_bind_kept {A B : Type} {P : Server → Prop} {p : H A} {k : A → H B} {s : Server} (hp : P (p.exec s).2)
    (hk : ∀ a, Same (fun s t => s = t ∧ P s) (k a) (k a)) : P ((p >>= k).exec s).2 := by
  rw [Call.exec_bind]
  rcases hr : p.exec s with ⟨r, s₁⟩
  rw [hr] at hp
  cases r with
  | ok a => exact (hk a s₁ s₁ ⟨rfl, hp⟩).1.2
  | error e => exact hp

def Flagged (b : Bool) (s : Server) : Prop := s.softFailed "$q" = b

theorem flagged_handles (b : Bool) (id : EventId) : Handles .plain "!r:a" id fun s t => s = t ∧ Flagged b s := by
  apply handles_of_kept
  intro w s hw hs
  cases hw with
  | add json =>
    simp only [Write.apply, Server.addPduOutlier]
    split <;> exact hs
  | mark code =>
    simp only [Write.apply, Server.markEventRejected]
    split <;> exact hs
  | _ => exact hs

theorem nested_unflagged (n : Nat) (eid : EventId) (value : Object) :
    Same (fun s t => s = t ∧ Flagged false s) (orphanExchange.nested Exchange.tooDeep n eid value)
      (orphanExchange.nested Exchange.tooDeep n eid value) := by
  induction n generalizing eid value with
  | zero => exact Lockstep.throw _
  | succ n ih => exact (flagged_handles false eid).outlierBody_same fun eid other _ => ih eid other

def flagging (_ : EventId) (_ : Object) : H (Pdu × Object) := do
  Call.modify fun s => { s with softFailed := fun _ => true }
  throw (.database "")

def looping (clock : Nat) (log : List Mark) : Server := .asking (fun _ => some [some orphanEvent]) clock log

def orphanContent : Object := attach "$x" (orphanEvent.get "unsigned") (orphanEvent.remove "unsigned")

theorem body_exec (recur : EventId → Object → H (Pdu × Object)) (clock : Nat) (log : List Mark) :
    (orphanExchange.body recur orphanHandling).exec (looping clock log) =
      (authorizeOutlier .plain recur "b" none "$x" "!r:a" .V11 .afterStateIds .validated
        orphanEvent orphanContent).exec
        (looping (clock + 1) (.verified .handleOutlier "!r:a" .V11 "$x" (orphanEvent.remove "unsigned")
          .all :: log)) := rfl

def orphanChain : List (EventId × (Object × Pdu)) := authChain .plain "!r:a" .V11 [some orphanEvent]

theorem fetch_exec (recur : EventId → Object → H (Pdu × Object)) (found : AuthEvents)
    (clock : Nat) (log : List Mark) :
    (fetchAuthChain .plain recur "b" "!r:a" "$x" .V11 orphanContent found).exec (looping clock log) =
      (handleAuthChain .plain recur "!r:a" "$x" orphanContent orphanChain found "$x" >>= pure).exec
        (looping (clock + 3) (.received "!r:a" .V11 "$x" orphanEvent :: log)) := rfl

section
variable {recur : EventId → Object → H (Pdu × Object)}
  (h : ∀ clock log, Flagged true ((recur "$x" orphanEvent).exec (looping clock log)).2)
  (clock : Nat) (log : List Mark)

include h

theorem fetch_flagged (auth : Pdu) : Flagged true
    ((fetchAuthChain .plain recur "b" "!r:a" "$x" .V11 orphanContent [("$c", auth)]).exec
      (looping clock log)).2 := by
  rw [fetch_exec]
  apply exec_bind_kept (P := Flagged true)
  · have hentry : List.lookup "$x" orphanChain = some (orphanEvent, _) := rfl
    unfold handleAuthChain
    rw [hentry]
    apply exec_bind_kept (P := Flagged true)
    · rw [Call.exec_attempt]
      exact h _ _
    · intro r
      split
      · exact pure_same _
      · split
        · exact (flagged_handles true "$x").rejectOutlier_same _ _
        · exact pure_same _
  · intro found
    exact pure_same found

theorem complete_flagged {pdu : Pdu} (hauth : pdu.authEvents = ["$c", "$z"]) (auth : Pdu) : Flagged true
    ((completeAuthEvents .plain recur "b" "!r:a" "$x" .V11 pdu orphanContent [("$c", auth)] .afterStateIds).exec
      (looping clock log)).2 := by
  have hs := flagged_handles true "$x"
  have hmissing : (["$c", "$z"].filter fun aid => (AuthEvents.get [("$c", auth)] aid).isNone) = ["$z"] := rfl
  have hrefused : (["$z"].foldlM (refuseMissing .plain "!r:a" "$x" orphanContent) ()).exec (looping clock log) =
      (.ok (), looping clock log) := rfl
  unfold completeAuthEvents
  rw [hauth, hmissing]
  unfold resolveMissingOutlierAuthEvents
  rw [hauth]
  simp only [List.isEmpty_cons, Bool.false_eq_true, ↓reduceIte, List.length_cons, List.length_nil]
  rw [Call.exec_bind, hrefused]
  apply exec_bind_kept (P := Flagged true)
  · exact fetch_flagged h _ _ auth
  · intro found
    apply Lockstep.andThen (Same.foldlM _ fun missing aid _ => hs.stillMissing_same found missing aid)
    intro still
    split
    · exact pure_same _
    · exact hs.deferOutlier_same _

theorem body_flagged : Flagged true ((orphanExchange.body recur orphanHandling).exec (looping clock log)).2 := by
  have hs := flagged_handles true "$x"
  have hparsed : ∃ pdu, fromIdVal .plain "$x" orphanContent "!r:a" = .ok pdu ∧ pdu.authEvents = ["$c", "$z"] ∧
      checkRoomId .plain "!r:a" pdu = .ok () := ⟨_, rfl, rfl, rfl⟩
  have hlocal : ∀ clock log, ∃ auth, (["$c", "$z"].foldlM (localAuthEvent .plain "!r:a" "$x" orphanContent) []).exec
      (looping clock log) = (.ok [("$c", auth)], looping clock log) := fun _ _ => ⟨_, rfl⟩
  obtain ⟨pdu, hparsed, hauth, hroom⟩ := hparsed
  obtain ⟨auth, hlocal⟩ := hlocal (clock + 1)
    (.verified .handleOutlier "!r:a" .V11 "$x" (orphanEvent.remove "unsigned") .all :: log)
  rw [body_exec]
  unfold authorizeOutlier
  rw [hparsed]
  dsimp only
  rw [hroom, hauth]
  simp only [lift, pure_bind]
  rw [Call.exec_bind, hlocal]
  dsimp only
  apply exec_bind_kept (P := Flagged true)
  · exact complete_flagged h _ _ hauth auth
  · intro found
    apply Lockstep.andThen (Same.foldlM _ fun byKey aid _ => hs.keyAuthEvent_same found byKey aid)
    intro byKey
    split
    · exact hs.rejectOutlier_same _ _
    · split
      · exact hs.rejectOutlier_same _ _
      · apply Lockstep.andThen (hs.add_same _)
        intro _
        apply Lockstep.andThen (hs.write_same (.accept _ _ _))
        intro _
        exact pure_same _

end

theorem nested_flagged (n : Nat) (clock : Nat) (log : List Mark) :
    Flagged true ((orphanExchange.nested flagging n "$x" orphanEvent).exec (looping clock log)).2 := by
  induction n generalizing clock log with
  | zero => rfl
  | succ n ih => exact body_flagged ih clock log

end Congruent
