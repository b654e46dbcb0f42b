import Congruent.Trail

/-!
# Verdicts for good

A rejection that is not retryable stands until `handle_outlier_pdu` passes the event
anew, except for the retry of rejected outliers, which asks only for what the event
depends on, and for the reuse of stored content.
-/

namespace Congruent

section
variable (id : EventId)

/-- `handle_outlier_pdu` passed all its checks on the event. -/
def Validated (log : List Mark) : Prop :=
  ∃ how room value json, (how ≠ .known ∧ how ≠ .reused) ∧ .returned how room id value json ∈ log

def VerdictStands (s : Server) : Prop :=
  (s.isEventPermanentlyRejected id = true ∧ s.getPduId id = none) ∨ Validated id s.log

/-- No delivery finds all that the event depends on accepted, and its stored content is not
looked up in the place of content whose hash failed. -/
def NoShortcut (log : List Mark) : Prop :=
  (∀ call, ¬ DepsFound log call id) ∧ ∀ room json, .reencoded room id json ∉ log

/-- Nothing in the log has taken the event up. -/
def Untouched : Mark → Prop
  | .eligible x => x ≠ id
  | .returned _ _ x _ _ => x ≠ id
  | .unrejected _ x => x ≠ id
  | .retried _ _ x _ => x ≠ id
  | .promoted _ x _ => x ≠ id
  | _ => True

/-- A standing verdict that nothing has touched. -/
structure Standing (s : Server) : Prop where
  rejected : s.isEventPermanentlyRejected id = true
  position : s.getPduId id = none
  untouched : ∀ m ∈ s.log, Untouched id m

end

section
variable {plat : Platform} {id : EventId} {s : Server}

theorem permanent_not_retryable (h : s.isEventPermanentlyRejected id = true) :
    (s.rejection id).all RejectionCode.isRetryable = false := by
  unfold Server.isEventPermanentlyRejected at h
  cases hc : s.rejection id with
  | none => simp [hc] at h
  | some code => simpa [hc] using h

theorem Standing.not_handed (h : Standing id s) {call : Nat} {room : RoomId} {json : Object} {flag : Bool} :
    ¬ Handed plat s.log call room id json flag := by
  intro hh
  cases hh with
  | entered he =>
    cases he with
    | delivered origin value how _ _ _ _ _ hr => exact h.untouched _ hr rfl
    | retried origin value _ hr => exact h.untouched _ hr rfl
  | fetched _ _ _ value how _ hr => exact h.untouched _ hr rfl
  | promoted _ _ _ hp => exact h.untouched _ hp rfl

theorem NoShortcut.anti {log log' : List Mark} (h : NoShortcut id log')
    (hl : ∀ m ∈ log, m ∈ log') : NoShortcut id log :=
  ⟨fun call hfound => h.1 call (hfound.mono hl), fun room json hm => h.2 room json (hl _ hm)⟩

theorem Standing.note (h : Standing id s) {m : Mark} (hm : m.Allowed plat s) (hc : NoShortcut id s.log) :
    Untouched id m := by
  have hperm := permanent_not_retryable h.rejected
  cases m with
  | eligible x =>
    rintro rfl
    change (s.rejection x).all RejectionCode.isRetryable = true at hm
    rw [hperm] at hm
    cases hm
  | returned how room x value json =>
    rintro rfl
    rcases hm with ⟨rfl | rfl, hal⟩
    · rw [hal.2] at hperm
      cases hperm
    · exact hc.2 room json hal
  | retried call room x json =>
    rintro rfl
    exact h.untouched _ hm.1 rfl
  | promoted room x json =>
    rintro rfl
    exact h.untouched _ hm.1 rfl
  | unrejected call x => exact hm.elim
  | _ => trivial

theorem Standing.of_eq {s' : Server} (h : Standing id s) (hr : s'.rejection id = s.rejection id)
    (hm : s'.getPduId id = none) (hl : ∀ m ∈ s'.log, Untouched id m) : Standing id s' := by
  refine ⟨?_, hm, hl⟩
  have := h.rejected
  unfold Server.isEventPermanentlyRejected at this ⊢
  rwa [hr]

theorem setRejection_ne {x : EventId} (hx : x ≠ id) (code : Option RejectionCode) :
    (s.setRejection x code).rejection id = s.rejection id :=
  Function.update_of_ne (Ne.symm hx) _ _

theorem Standing.addPduOutlier (h : Standing id s) (room : RoomId) (x : EventId) (json : Object) :
    Standing id (s.addPduOutlier plat room x json) := by
  have hpos := h.position
  unfold Server.addPduOutlier
  split
  · exact h
  · refine h.of_eq rfl ?_ ?_
    · unfold Server.getPduId at hpos ⊢
      simp only
      cases plat.decodePdu (json.insert "event_id" (.str x)) with
      | ok _ =>
        by_cases hx : id = x
        · simp [hx]
        · simpa [Function.update_of_ne hx] using hpos
      | error _ => exact hpos
    · intro m hm
      rcases List.mem_cons.mp hm with rfl | hm
      · trivial
      · exact h.untouched m hm

theorem Standing.markEventRejected (h : Standing id s) (x : EventId) (code : RejectionCode) :
    Standing id (s.markEventRejected x code) := by
  unfold Server.markEventRejected
  split
  · exact h
  · rename_i hno
    by_cases hx : x = id
    · subst hx
      refine ⟨?_, h.position, h.untouched⟩
      have hold := h.rejected
      unfold Server.isEventPermanentlyRejected at hold ⊢
      cases hc : s.rejection x with
      | none => simp [hc] at hold
      | some old =>
        -- a permanent verdict is replaced only by another permanent one
        simp only [hc, Option.any_some] at hold hno
        simp [Server.setRejection, hold] at hno ⊢
        exact hno
    · exact h.of_eq (setRejection_ne hx _) h.position h.untouched

theorem Standing.append (h : Standing id s) {a : Append} (hx : a.pdu.eventId ≠ id) :
    Standing id (s.appendPdu plat a) := by
  refine h.of_eq (Function.update_of_ne (Ne.symm hx) _ _) ?_ ?_
  · have hpos := h.position
    unfold Server.getPduId at hpos ⊢
    show (Function.update s.eventidMetadata a.pdu.eventId _ id).bind _ = none
    rwa [Function.update_of_ne (Ne.symm hx)]
  · intro m hm
    change m ∈ _ :: _ :: _ :: s.log at hm
    simp only [List.mem_cons] at hm
    rcases hm with rfl | rfl | rfl | hm
    · trivial
    · trivial
    · trivial
    · exact h.untouched m hm

/-- Every write keeps a standing verdict, or validates the event anew. -/
theorem Standing.write (h : Standing id s) {w : Write} (hw : w.Allowed plat s) (hc : NoShortcut id s.log) :
    Standing id (w.apply plat s) ∨ Validated id (w.apply plat s).log := by
  have hcons : ∀ {m : Mark}, Untouched id m → ∀ m' ∈ m :: s.log, Untouched id m' := by
    intro m hm m' hm'
    rcases List.mem_cons.mp hm' with rfl | hm'
    · exact hm
    · exact h.untouched m' hm'
  cases w with
  | tick => exact .inl ⟨h.rejected, h.position, h.untouched⟩
  | note m => exact .inl ⟨h.rejected, h.position, hcons (h.note hw hc)⟩
  | addPduOutlier room x json => exact .inl (h.addPduOutlier room x json)
  | markEventRejected x code => exact .inl (h.markEventRejected x code)
  | takeRetry x =>
    have hx : x ≠ id := by
      rintro rfl
      have hperm := permanent_not_retryable h.rejected
      change (s.rejection x).any RejectionCode.isRetryable = true at hw
      cases hcode : s.rejection x with
      | none => simp [hcode] at hw
      | some code => simp [hcode] at hw hperm; simp [hw] at hperm
    exact .inl (h.of_eq (setRejection_ne hx _) h.position h.untouched)
  | accept how room x value json =>
    by_cases hx : x = id
    · subst hx
      exact .inr ⟨how, room, value, json, hw.1, List.mem_cons_self ..⟩
    · exact .inl (h.of_eq (setRejection_ne hx _) h.position (hcons hx))
  | unreject call x =>
    have hx : x ≠ id := by
      rintro rfl
      exact hc.1 call hw
    exact .inl (h.of_eq (setRejection_ne hx _) h.position (hcons hx))
  | clearStale x =>
    have hx : x ≠ id := by
      rintro rfl
      change (s.getPduId x).isSome = true at hw
      rw [h.position] at hw
      cases hw
    exact .inl (h.of_eq (setRejection_ne hx _) h.position h.untouched)
  | softFail call room x json flag root =>
    have hx : x ≠ id := by
      rintro rfl
      exact h.not_handed hw
    exact .inl (h.of_eq (setRejection_ne hx _) h.position h.untouched)
  | append a =>
    have hx : a.pdu.eventId ≠ id := by
      intro hx
      exact h.not_handed (hx ▸ hw.1)
    exact .inl (h.append hx)

theorem Path.standing {s₀ : Server} (h : Path plat s₀ s) (h₀ : Standing id s₀) (hc : NoShortcut id s.log) :
    Standing id s ∨ Validated id s.log := by
  induction h with
  | refl => exact .inl h₀
  | @tail t _ hp hst ih =>
    have hc' := hc.anti fun _ hm => hst.log hm
    rcases ih hc' with ht | ⟨how, room, value, json, hhow, hm⟩
    · cases hst with
      | write w hw => exact ht.write hw hc'
    · exact .inr ⟨how, room, value, json, hhow, hst.log hm⟩

end

/-- However jobs are interleaved, as long as no delivery finds all that the event depends on
accepted, nor content with a wrong hash is looked up in the store, a verdict for good on a
stored outlier stands until the event is validated anew. -/
theorem serve_verdict_stands (plat : Platform) (jobs : List (Nat × Job)) (schedule : List Nat) (s₀ : Server)
    (id : EventId) (h₀ : s₀.log = []) (hr : s₀.isEventPermanentlyRejected id = true) (hp : s₀.getPduId id = none)
    (hc : NoShortcut id (serve plat jobs schedule s₀).log) : VerdictStands id (serve plat jobs schedule s₀) := by
  have hstart : Standing id s₀ := ⟨hr, hp, by simp [h₀]⟩
  exact ((serve_path jobs schedule s₀).standing hstart hc).imp_left fun h => ⟨h.rejected, h.position⟩

/-! ## Runs -/

def Server.withRejected (prev : EventId) (world : Nat → World) : Server :=
  let s := Server.plain world
  { s with
    eventidPdu := Function.update s.eventidPdu "$m"
      (some (wireEvent "m" "m.room.message" "@u:b" none [] ["$c", "$j"] [prev]))
    eventidMetadata := Function.update s.eventidMetadata "$m" (some ⟨true, none⟩)
    rejection := Function.update s.rejection "$m" (some .signatureVerificationFailed) }

def againJobs (prev : EventId) : List (Nat × Job) :=
  [(100, .pdu "b" (some (wireEvent "m" "m.room.message" "@u:b" none [] ["$c", "$j"] [prev])))]

/-- Marks of a run in which every retry misses one predecessor. -/
def Mark.misses (prev : EventId) : Mark → Bool
  | considered _ _ _ prevEvents => prevEvents.contains prev
  | prevInTimeline _ id => id != prev
  | reencoded .. => false
  | _ => true

theorem noShortcut_of_all {id : EventId} {log : List Mark} (prev : EventId)
    (h : log.all (Mark.misses prev) = true) :
    NoShortcut id log := by
  rw [List.all_eq_true] at h
  constructor
  · rintro call ⟨authEvents, prevEvents, hc, -, hprevs⟩
    have hmem : prev ∈ prevEvents := by simpa [Mark.misses] using h _ hc
    have hne := h _ (hprevs prev hmem)
    simp [Mark.misses] at hne
  · intro room json hm
    cases h _ hm

theorem orphan_verdict_stands :
    (serve .plain (againJobs "$x") (List.replicate 100 0) (.withRejected "$x" fun _ => .plain)).log ≠ [] ∧
      VerdictStands "$m" (serve .plain (againJobs "$x") (List.replicate 100 0)
        (.withRejected "$x" fun _ => .plain)) := by
  refine ⟨fun h => ?_, ?_⟩
  · have hlen := congrArg List.length h
    exact absurd hlen (by decide +kernel)
  · refine serve_verdict_stands .plain (againJobs "$x") (List.replicate 100 0) (.withRejected "$x" fun _ => .plain)
      "$m" rfl (by decide +kernel) (by decide +kernel) (noShortcut_of_all "$x" (by decide +kernel))

-- What the message depends on is in the timeline, so its redelivery clears the verdict
-- and appends it unchecked.
theorem rejected_message_appended :
    ¬ ∀ (plat : Platform) (jobs : List (Nat × Job)) (schedule : List Nat) (s₀ : Server)
      (id : EventId), s₀.log = [] →
      s₀.pduExists id = true → s₀.isEventPermanentlyRejected id = true → s₀.getPduId id = none →
      VerdictStands id (serve plat jobs schedule s₀) := by
  intro h
  have hs := h .plain (againJobs "$j") (List.replicate 100 0) (.withRejected "$j" fun _ => .plain) "$m" rfl
    (by decide) (by decide) (by decide)
  rcases hs with ⟨hr, _⟩ | ⟨how, room, value, json, _, hm⟩
  · exact absurd hr (by decide +kernel)
  · have hall : (serve .plain (againJobs "$j") (List.replicate 100 0)
        (.withRejected "$j" fun _ => .plain)).log.all (fun m => match m with
          | .returned .. => false
          | _ => true) = true := by decide +kernel
    exact absurd (List.all_eq_true.mp hall _ hm) (by simp)

end Congruent
