import Congruent.Trail
import Mathlib.Data.List.Dedup

/-!
# Forward extremities

The tips of a room are kept by increments: an appended event takes the tips it cites
away and becomes a tip itself, an ancestor only when no other tip would be left. They
are the events that became tips and that no accepted event cites.
-/

namespace Congruent

/-! ## The events of a room -/

def acceptedIn (room : RoomId) (id : EventId) (log : List Mark) : Bool :=
  log.any fun m => match m with
    | .appended _ r x _ _ _ => decide (r = room) && decide (x = id)
    | _ => false

def citedIn (room : RoomId) (id : EventId) (log : List Mark) : Bool :=
  log.any fun m => match m with
    | .appended _ r _ prevs _ _ => decide (r = room) && prevs.contains id
    | _ => false

/-- Whether an event becomes a tip when it is appended: as a timeline event, or when it
cites every tip. -/
def Mark.pushes (room : RoomId) (id : EventId) : Mark → List Mark → Bool
  | .appended _ r x prevs _ flag, .stored _ _ _ :: .tips _ current _ :: _ =>
    decide (r = room) && decide (x = id) && (flag || current.all prevs.contains)
  | _, _ => false

/-- A log since `base`, newest first, each of whose marks satisfies `P` with those before it. -/
inductive Since (P : Mark → List Mark → Prop) (base : List Mark) : List Mark → Prop
  | start : Since P base base
  | cons {m : Mark} {l : List Mark} (h : P m l) (hl : Since P base l) : Since P base (m :: l)

/-- Events of the room's history, and those that became tips since. -/
def BecameTip (base : List Mark) (room : RoomId) (id : EventId) (log : List Mark) : Prop :=
  acceptedIn room id base = true ∨ ∃ m l, m :: l <:+ log ∧ base <:+ l ∧ m.pushes room id l = true

section
variable (plat : Platform) (room : RoomId)

/-- Whether an append drops no tip, and adds no tip that is cited already. -/
def keepsTips : Mark → List Mark → Bool
  | .appended _ r id prevs _ flag, .stored _ _ _ :: .tips _ current flagged :: l => decide (r = room →
    flagged = [] ∧ current.length < plat.maxForwardExtremities ∧
      ((flag || current.all prevs.contains) = true → citedIn room id l = false ∧ id ∉ prevs))
  | _, _ => true

/-- No append drops a tip or adds one that is cited already. -/
def TipsKept (m : Mark) (log : List Mark) : Prop := keepsTips plat room m log = true

/-- The room's tips, and the table of cited events. -/
structure Tips (base : List Mark) (s : Server) : Prop where
  nodup : (s.pduleaves room).Nodup
  nonempty : s.pduleaves room ≠ []
  mem_iff : ∀ id, id ∈ s.pduleaves room ↔ BecameTip base room id s.log ∧ citedIn room id s.log = false

/-- A room whose tips are those of its history. -/
structure TipsStart (s : Server) : Prop where
  tips : Tips room s.log s
  referenced : ∀ id, s.referenced room id = citedIn room id s.log

end

/-! ## Logs -/

section
variable {P : Mark → List Mark → Prop} {base l : List Mark} {m : Mark} {room : RoomId} {id : EventId}

theorem BecameTip.cons (h : BecameTip base room id l) : BecameTip base room id (m :: l) :=
  h.imp_right fun ⟨m', l', hs, hb, hp⟩ => ⟨m', l', hs.trans (List.suffix_cons _ _), hb, hp⟩

theorem becameTip_cons (hb : base <:+ l) :
    BecameTip base room id (m :: l) ↔ BecameTip base room id l ∨ m.pushes room id l = true := by
  constructor
  · rintro (h | ⟨m', l', hs, hb', hp⟩)
    · exact .inl (.inl h)
    · rcases List.suffix_cons_iff.mp hs with heq | hs
      · cases heq
        exact .inr hp
      · exact .inl (.inr ⟨m', l', hs, hb', hp⟩)
  · rintro (h | hp)
    · exact h.cons
    · exact .inr ⟨m, l, List.suffix_rfl, hb, hp⟩

theorem plain_mark (room : RoomId) (id : EventId) (l : List Mark) (hm : m.isAppended = false) :
    m.pushes room id l = false ∧ citedIn room id (m :: l) = citedIn room id l := by
  cases m with
  | appended call r x prevs json flag => cases hm
  | _ => exact ⟨rfl, rfl⟩

end

section
variable {plat : Platform} {room : RoomId} {base : List Mark} {s : Server}

/-- What holds of the tips of a room throughout. -/
structure TipsInv (room : RoomId) (base : List Mark) (s : Server) : Prop where
  suffix : base <:+ s.log
  tips : Tips room base s
  referenced : ∀ id, s.referenced room id = citedIn room id s.log

theorem TipsInv.of_marks (h : TipsInv room base s) {s' : Server}
    (ms : List Mark) (hms : ∀ m ∈ ms, m.isAppended = false) (hlog : s'.log = ms ++ s.log)
    (hl : s'.pduleaves = s.pduleaves) (hr : s'.referenced = s.referenced) : TipsInv room base s' := by
  have hsame : ∀ id, (BecameTip base room id s'.log ↔ BecameTip base room id s.log) ∧
      citedIn room id s'.log = citedIn room id s.log := by
    intro id
    rw [hlog]
    clear hlog
    induction ms with
    | nil => exact ⟨Iff.rfl, rfl⟩
    | cons m ms ih =>
      obtain ⟨ih₁, ih₂⟩ := ih fun m' hm' => hms m' (by simp [hm'])
      obtain ⟨hp, hc⟩ := plain_mark room id (ms ++ s.log) (hms m (by simp))
      have hb : base <:+ ms ++ s.log := h.suffix.trans (List.suffix_append _ _)
      refine ⟨?_, by rw [List.cons_append, hc, ih₂]⟩
      rw [List.cons_append, becameTip_cons hb, hp, ih₁]
      simp
  refine ⟨?_, ⟨?_, ?_, fun id => ?_⟩, fun id => ?_⟩
  · rw [hlog]
    exact h.suffix.trans (List.suffix_append _ _)
  · rw [hl]
    exact h.tips.nodup
  · rw [hl]
    exact h.tips.nonempty
  · rw [hl, (hsame id).1, (hsame id).2]
    exact h.tips.mem_iff id
  · rw [hr, (hsame id).2]
    exact h.referenced id

/-! ## Appending -/

def Server.remainingTips (s : Server) (room : RoomId) (prevs : List EventId) : List EventId :=
  (s.pduleaves room).filter fun x => !prevs.contains x

theorem TipsInv.kept (h : TipsInv room base s) (prevs : List EventId) :
    ((s.pduleaves room).filter fun x => !prevs.contains x && !s.referenced room x) =
      s.remainingTips room prevs := by
  refine List.filter_congr fun x hx => ?_
  rw [h.referenced, ((h.tips.mem_iff x).mp hx).2]
  simp

theorem mem_setForwardExtremities (room : RoomId) {id : EventId} {leaves : List EventId} (hne : leaves ≠ [])
    (hok : ∀ x ∈ leaves, s.mayBeTip id x = true) (hlen : leaves.length ≤ plat.maxForwardExtremities) :
    (s.setForwardExtremities plat room leaves id).Nodup ∧ s.setForwardExtremities plat room leaves id ≠ [] ∧
      ∀ x, x ∈ s.setForwardExtremities plat room leaves id ↔ x ∈ leaves := by
  have helig : leaves.filter (s.mayBeTip id) = leaves := List.filter_eq_self.mpr hok
  have heq : s.setForwardExtremities plat room leaves id = leaves.dedup.insertionSort (· ≤ ·) := by
    unfold Server.setForwardExtremities
    simp only [helig]
    rw [if_neg (by simpa using hne), Nat.sub_eq_zero_of_le hlen, List.drop_zero]
  have hmem : ∀ x, x ∈ s.setForwardExtremities plat room leaves id ↔ x ∈ leaves := by
    intro x
    rw [heq, (List.perm_insertionSort _ _).mem_iff, List.mem_dedup]
  refine ⟨?_, ?_, hmem⟩
  · rw [heq, (List.perm_insertionSort _ _).nodup_iff]
    exact List.nodup_dedup leaves
  · intro hnil
    obtain ⟨x, hx⟩ := List.exists_mem_of_ne_nil leaves hne
    rw [← hmem, hnil] at hx
    cases hx

theorem TipsInv.append_other (h : TipsInv room base s) {a : Append} (hr : a.room ≠ room) :
    TipsInv room base (s.appendPdu plat a) := by
  have hcited : ∀ id, citedIn room id (s.appendPdu plat a).log = citedIn room id s.log := by
    intro id
    show citedIn room id (s.appendMark plat a :: s.appendLog plat a) = _
    simp [Server.appendMark, Server.appendLog, citedIn, hr]
  have hpushes : ∀ id, (s.appendMark plat a).pushes room id (s.appendLog plat a) = false := by
    intro id
    simp [Server.appendMark, Server.appendLog, Mark.pushes, hr]
  have hsuf : base <:+ s.appendLog plat a := h.suffix.trans (suffix_appendLog a)
  have htip : ∀ id, BecameTip base room id (s.appendPdu plat a).log ↔ BecameTip base room id s.log := by
    intro id
    show BecameTip base room id (s.appendMark plat a :: s.appendLog plat a) ↔ _
    rw [becameTip_cons hsuf, hpushes]
    unfold Server.appendLog
    rw [becameTip_cons (h.suffix.trans (List.suffix_cons _ _)), becameTip_cons h.suffix]
    simp [Mark.pushes]
  have hleaves : (s.appendPdu plat a).pduleaves room = s.pduleaves room := Function.update_of_ne (Ne.symm hr) _ _
  have href : (s.appendPdu plat a).referenced room = s.referenced room := Function.update_of_ne (Ne.symm hr) _ _
  refine ⟨hsuf.trans (List.suffix_cons _ _), ⟨?_, ?_, fun id => ?_⟩, fun id => ?_⟩
  · rw [hleaves]
    exact h.tips.nodup
  · rw [hleaves]
    exact h.tips.nonempty
  · rw [hleaves, htip, hcited]
    exact h.tips.mem_iff id
  · rw [href, hcited]
    exact h.referenced id

section
variable {a : Append}

def Server.candidateTips (s : Server) (a : Append) : List EventId :=
  if a.isTimelineEvent || (s.remainingTips a.room a.pdu.prevEvents).isEmpty then
    s.remainingTips a.room a.pdu.prevEvents ++ [a.pdu.eventId]
  else s.remainingTips a.room a.pdu.prevEvents

theorem TipsInv.candidates (h : TipsInv a.room base s) :
    calculateForwardExtremities (s.pduleaves a.room) a.pdu.eventId a.pdu.prevEvents false (s.referenced a.room)
      a.isTimelineEvent = s.candidateTips a := by
  unfold calculateForwardExtremities Server.candidateTips
  simp only [Bool.false_eq_true, ↓reduceIte, h.kept]

theorem remaining_isEmpty (prevs : List EventId) (room : RoomId) :
    (s.remainingTips room prevs).isEmpty = (s.pduleaves room).all prevs.contains := by
  unfold Server.remainingTips
  induction s.pduleaves room with
  | nil => rfl
  | cons x xs ih =>
    by_cases hx : prevs.contains x = true
    · rw [List.filter_cons_of_neg (by simpa using hx), ih, List.all_cons, hx, Bool.true_and]
    · rw [List.filter_cons_of_pos (by simpa using hx), List.all_cons]
      simp at hx
      simp [hx]

theorem mem_candidateTips (x : EventId) :
    x ∈ s.candidateTips a ↔ (x ∈ s.pduleaves a.room ∧ x ∉ a.pdu.prevEvents) ∨
      (x = a.pdu.eventId ∧ (a.isTimelineEvent || (s.pduleaves a.room).all a.pdu.prevEvents.contains) = true) := by
  have hrem : x ∈ s.remainingTips a.room a.pdu.prevEvents ↔ x ∈ s.pduleaves a.room ∧ x ∉ a.pdu.prevEvents := by
    simp [Server.remainingTips]
  unfold Server.candidateTips
  rw [remaining_isEmpty]
  split
  · rename_i hput
    rw [List.mem_append, List.mem_singleton, hrem]
    simp [hput]
  · rename_i hput
    rw [hrem]
    simp [hput]

theorem candidateTips_ne_nil : s.candidateTips a ≠ [] := by
  unfold Server.candidateTips
  split
  · simp
  · rename_i hput
    intro hnil
    rw [hnil] at hput
    simp at hput

theorem candidateTips_length : (s.candidateTips a).length ≤ (s.pduleaves a.room).length + 1 := by
  have hrem : (s.remainingTips a.room a.pdu.prevEvents).length ≤ (s.pduleaves a.room).length :=
    List.length_filter_le _ _
  unfold Server.candidateTips
  split
  · rw [List.length_append, List.length_singleton]
    omega
  · omega

/-- An append of the room takes the cited tips away and may add its event. -/
theorem TipsInv.append_room (h : TipsInv a.room base s)
    (hk : TipsKept plat a.room (s.appendMark plat a) (s.appendLog plat a)) :
    TipsInv a.room base (s.appendPdu plat a) := by
  obtain ⟨hflag, hlen, hput⟩ := of_decide_eq_true hk rfl
  have hsuf : base <:+ s.appendLog plat a := h.suffix.trans (suffix_appendLog a)
  have hcited : ∀ id, citedIn a.room id (s.appendPdu plat a).log =
      (a.pdu.prevEvents.contains id || citedIn a.room id s.log) := by
    intro id
    show citedIn a.room id (s.appendMark plat a :: s.appendLog plat a) = _
    simp [Server.appendMark, Server.appendLog, citedIn]
  have htip : ∀ id, BecameTip base a.room id (s.appendPdu plat a).log ↔ BecameTip base a.room id s.log ∨
      (id = a.pdu.eventId ∧ (a.isTimelineEvent || (s.pduleaves a.room).all a.pdu.prevEvents.contains) = true) := by
    intro id
    show BecameTip base a.room id (s.appendMark plat a :: s.appendLog plat a) ↔ _
    rw [becameTip_cons hsuf]
    unfold Server.appendLog
    rw [becameTip_cons (h.suffix.trans (List.suffix_cons _ _)), becameTip_cons h.suffix]
    rw [@eq_comm _ id]
    simp [Mark.pushes, Server.appendMark]
  have hok : ∀ x ∈ s.candidateTips a, s.mayBeTip a.pdu.eventId x = true := by
    intro x hx
    rcases (mem_candidateTips x).mp hx with ⟨hx, _⟩ | ⟨rfl, _⟩
    · have hnot := List.filter_eq_nil_iff.mp hflag x hx
      simpa using hnot
    · simp [Server.mayBeTip]
  have hleaves : (s.appendPdu plat a).pduleaves a.room =
      s.setForwardExtremities plat a.room (s.candidateTips a) a.pdu.eventId := by
    rw [← h.candidates]
    exact Function.update_self _ _ _
  obtain ⟨hnodup, hne, hmem⟩ := mem_setForwardExtremities a.room candidateTips_ne_nil hok
    (Nat.le_trans candidateTips_length hlen)
  refine ⟨hsuf.trans (List.suffix_cons _ _), ⟨?_, ?_, fun id => ?_⟩, fun id => ?_⟩
  · rw [hleaves]
    exact hnodup
  · rw [hleaves]
    exact hne
  · rw [hleaves, hmem, mem_candidateTips, htip, hcited, h.tips.mem_iff]
    constructor
    · rintro (⟨⟨ht, hc⟩, hp⟩ | ⟨rfl, hp⟩)
      · exact ⟨.inl ht, by simp [hc, hp]⟩
      · obtain ⟨hc, hself⟩ := hput hp
        exact ⟨.inr ⟨rfl, hp⟩, by simp [hc, hself]⟩
    · rintro ⟨ht, hc⟩
      rw [Bool.or_eq_false_iff] at hc
      have hp : id ∉ a.pdu.prevEvents := by simpa using hc.1
      rcases ht with ht | ht
      · exact .inl ⟨⟨ht, hc.2⟩, hp⟩
      · exact .inr ht
  · have href : (s.appendPdu plat a).referenced a.room id =
        (a.pdu.prevEvents.contains id || s.referenced a.room id) :=
      congrFun (Function.update_self a.room _ s.referenced) id
    rw [href, hcited, h.referenced]

end

theorem TipsInv.write (h : TipsInv room base s) {w : Write} (hw : w.Allowed plat s)
    (hk : Since (TipsKept plat room) base (w.apply plat s).log) : TipsInv room base (w.apply plat s) := by
  cases w with
  | tick => exact h.of_marks [] (by simp) rfl rfl rfl
  | note m =>
    refine h.of_marks [m] ?_ rfl rfl rfl
    intro m' hm'
    rw [List.mem_singleton.mp hm']
    cases m with
    | appended call r x prevs json flag => exact hw.elim
    | _ => rfl
  | addPduOutlier r x json =>
    show TipsInv room base (s.addPduOutlier plat r x json)
    unfold Server.addPduOutlier
    split
    · exact h
    · exact h.of_marks [.stored r x (json.insert "event_id" (.str x))] (by simp [Mark.isAppended]) rfl rfl rfl
  | markEventRejected x code =>
    show TipsInv room base (s.markEventRejected x code)
    unfold Server.markEventRejected
    split
    · exact h
    · exact h.of_marks [] (by simp) rfl rfl rfl
  | takeRetry x => exact h.of_marks [] (by simp) rfl rfl rfl
  | accept how r x value json =>
    exact h.of_marks [.returned how r x value json] (by simp [Mark.isAppended]) rfl rfl rfl
  | unreject call x => exact h.of_marks [.unrejected call x] (by simp [Mark.isAppended]) rfl rfl rfl
  | clearStale x => exact h.of_marks [] (by simp) rfl rfl rfl
  | softFail call r x json flag root => exact h.of_marks [] (by simp) rfl rfl rfl
  | append a =>
    by_cases hr : a.room = room
    · subst hr
      refine h.append_room ?_
      change Since (TipsKept plat a.room) base (s.appendMark plat a :: s.appendLog plat a) at hk
      -- the base ends before this append, since the log only grew
      cases hk with
      | start =>
        have hlen := h.suffix.length_le
        simp only [Server.appendLog, List.length_cons] at hlen
        omega
      | cons hk _ => exact hk
    · exact h.append_other hr

theorem Since.of_append {P : Mark → List Mark → Prop} {l : List Mark} (hb : base <:+ l) :
    ∀ (ms : List Mark), Since P base (ms ++ l) → Since P base l
  | [], h => h
  | m :: ms, h => by
    generalize hl : m :: ms ++ l = log at h
    cases h with
    | start =>
      have hlen := hb.length_le
      rw [← hl] at hlen
      simp only [List.cons_append, List.length_cons, List.length_append] at hlen
      omega
    | cons _ h =>
      cases hl
      exact Since.of_append hb ms h

theorem Path.tipsInv {s₀ : Server} (h : Path plat s₀ s) (h₀ : TipsStart room s₀)
    (hk : Since (TipsKept plat room) s₀.log s.log) : TipsInv room s₀.log s := by
  induction h with
  | refl => exact ⟨List.suffix_rfl, h₀.tips, h₀.referenced⟩
  | @tail t _ hp hst ih =>
    cases hst with
    | write w hw =>
      have hkt := hk
      rw [w.apply_log] at hkt
      exact (ih (hkt.of_append (Path.suffix hp))).write hw hk

theorem acceptedIn_of_suffix {id : EventId} {l : List Mark} (hs : base <:+ l) (h : acceptedIn room id base = true) :
    acceptedIn room id l = true := by
  obtain ⟨m, hm, hp⟩ := List.any_eq_true.mp h
  exact List.any_eq_true.mpr ⟨m, hs.subset hm, hp⟩

theorem BecameTip.accepted {id : EventId} {l : List Mark} (hb : base <:+ l) (h : BecameTip base room id l) :
    acceptedIn room id l = true := by
  rcases h with h | ⟨m, l', hs, _, hp⟩
  · exact acceptedIn_of_suffix hb h
  · refine acceptedIn_of_suffix hs ?_
    unfold Mark.pushes at hp
    split at hp
    · simp only [Bool.and_eq_true, decide_eq_true_eq] at hp
      simp [acceptedIn, hp.1.1, hp.1.2]
    · cases hp

end

/-- The room's tips are the accepted events that no accepted event cites. -/
structure TipsExact (room : RoomId) (s : Server) : Prop where
  nodup : (s.pduleaves room).Nodup
  nonempty : s.pduleaves room ≠ []
  mem_iff : ∀ id, id ∈ s.pduleaves room ↔ acceptedIn room id s.log = true ∧ citedIn room id s.log = false

/-- However jobs are interleaved, the room's tips are the events that became tips and that
no accepted event cites, as long as no tip is dropped and none is added that is cited
already. When every ancestor that did not become a tip is cited, they are exact. -/
theorem serve_tips (plat : Platform) (room : RoomId) (jobs : List (Nat × Job)) (schedule : List Nat) (s₀ : Server)
    (h₀ : TipsStart room s₀) (hk : Since (TipsKept plat room) s₀.log (serve plat jobs schedule s₀).log) :
    Tips room s₀.log (serve plat jobs schedule s₀) ∧
      ((∀ id, acceptedIn room id (serve plat jobs schedule s₀).log = true →
        ¬ BecameTip s₀.log room id (serve plat jobs schedule s₀).log →
        citedIn room id (serve plat jobs schedule s₀).log = true) →
          TipsExact room (serve plat jobs schedule s₀)) := by
  have hinv := (serve_path jobs schedule s₀).tipsInv h₀ hk
  refine ⟨hinv.tips, fun hcov => ⟨hinv.tips.nodup, hinv.tips.nonempty, fun id => ?_⟩⟩
  rw [hinv.tips.mem_iff]
  constructor
  · rintro ⟨ht, hc⟩
    exact ⟨ht.accepted hinv.suffix, hc⟩
  · rintro ⟨ha, hc⟩
    refine ⟨?_, hc⟩
    by_contra ht
    rw [hcov id ha ht] at hc
    cases hc

/-! ## Runs -/

/-- Checks the newest marks of a log. -/
def checks (p : Mark → List Mark → Bool) : Nat → List Mark → Bool
  | 0, _ => true
  | _ + 1, [] => true
  | n + 1, m :: l => p m l && checks p n l

theorem since_of_checks {p : Mark → List Mark → Bool} {base : List Mark} : ∀ {n : Nat} {log : List Mark},
    checks p n log = true → base = log.drop n → Since (fun m l => p m l = true) base log
  | 0, log, _, hb => by
    rw [hb, List.drop_zero]
    exact .start
  | n + 1, [], _, hb => by
    rw [hb, List.drop_nil]
    exact .start
  | n + 1, m :: log, h, hb => by
    rw [checks, Bool.and_eq_true] at h
    exact .cons h.1 (since_of_checks h.2 hb)

theorem serve_since {plat : Platform} {room : RoomId} {jobs : List (Nat × Job)} {schedule : List Nat} {s₀ : Server}
    (h : checks (keepsTips plat room) ((serve plat jobs schedule s₀).log.length - s₀.log.length)
      (serve plat jobs schedule s₀).log = true) :
    Since (TipsKept plat room) s₀.log (serve plat jobs schedule s₀).log := by
  have hpath : Path plat s₀ (serve plat jobs schedule s₀) := serve_path jobs schedule s₀
  exact since_of_checks h (List.suffix_iff_eq_drop.mp hpath.suffix)

def Server.withHistory (world : Nat → World) (messages : List EventId) : Server :=
  let s := Server.plain world
  { s with
    eventidPdu := fun id => if messages.contains id then
        some (wireEvent (String.ofList id.toList.tail) "m.room.message" "@u:b" none [] ["$c", "$j"] ["$j"])
      else s.eventidPdu id
    eventidMetadata := fun id => if messages.contains id then some ⟨false, some 2⟩ else s.eventidMetadata id
    eventRoot := fun id => if messages.contains id then s.eventRoot "$j" else s.eventRoot id
    referenced := fun room id => decide (room = "!r:a" ∧ (id = "$c" ∨ (messages ≠ [] ∧ id = "$j")))
    pduleaves := fun room => if room = "!r:a" then (if messages.isEmpty then ["$j"] else messages) else []
    log := messages.map (fun id => .appended 0 "!r:a" id ["$j"] [] true) ++
      [.appended 0 "!r:a" "$j" ["$c"] [] true, .appended 0 "!r:a" "$c" [] [] true] }

theorem withHistory_tips (world : Nat → World) (messages : List EventId) (hn : messages.Nodup)
    (hc : "$c" ∉ messages) (hj : "$j" ∉ messages) : TipsStart "!r:a" (.withHistory world messages) := by
  have hcited : ∀ id, citedIn "!r:a" id (Server.withHistory world messages).log =
      decide (id = "$c" ∨ (messages ≠ [] ∧ id = "$j")) := by
    intro id
    rw [Bool.eq_iff_iff]
    simp [Server.withHistory, citedIn, Function.comp_def]
    grind [List.exists_mem_of_ne_nil]
  have haccepted : ∀ id, acceptedIn "!r:a" id (Server.withHistory world messages).log =
      decide (id ∈ messages ∨ id = "$j" ∨ id = "$c") := by
    intro id
    rw [Bool.eq_iff_iff]
    simp [Server.withHistory, acceptedIn, Function.comp_def]
    grind
  have hbecame : ∀ id, BecameTip (Server.withHistory world messages).log "!r:a" id
      (Server.withHistory world messages).log ↔ id ∈ messages ∨ id = "$j" ∨ id = "$c" := by
    intro id
    rw [← decide_eq_true_iff (p := id ∈ messages ∨ id = "$j" ∨ id = "$c"), ← haccepted]
    refine ⟨fun h => h.accepted List.suffix_rfl, .inl⟩
  refine ⟨⟨?_, ?_, fun id => ?_⟩, fun id => ?_⟩
  · cases messages with
    | nil => simp [Server.withHistory]
    | cons x xs => simpa [Server.withHistory] using hn
  · cases messages <;> simp [Server.withHistory]
  · rw [hbecame, hcited]
    cases messages with
    | nil => simp [Server.withHistory]; grind
    | cons x xs => simp [Server.withHistory]; grind
  · rw [hcited]
    simp [Server.withHistory]

/-- A message after the join is delivered. -/
def nextJobs : List (Nat × Job) :=
  [(100, .pdu "b" (some (wireEvent "n" "m.room.message" "@u:b" none [] ["$c", "$j"] ["$j"])))]

theorem next_message_tips :
    (serve .plain nextJobs (List.replicate 100 0) (.withHistory (fun _ => .plain) [])).pduleaves "!r:a" = ["$n"] ∧
      Tips "!r:a" (Server.withHistory (fun _ => .plain) []).log
        (serve .plain nextJobs (List.replicate 100 0) (.withHistory (fun _ => .plain) [])) := by
  refine ⟨by decide +kernel, (serve_tips .plain "!r:a" nextJobs (List.replicate 100 0)
    (.withHistory (fun _ => .plain) []) (withHistory_tips _ [] (by simp) (by simp) (by simp)) ?_).1⟩
  exact serve_since (by decide +kernel)

def spamWorld : World :=
  { World.plain with
    missingEvents := fun _ _ _ => some [some (wireEvent "p" "m.room.message" "@u:b" none [] ["$c", "$j"] ["$a"])]
    policySpam := fun pdu _ => pdu.eventId = "$e" }

/-- A message after one that the server lacks is delivered. -/
def spamJobs : List (Nat × Job) :=
  [(400, .pdu "b" (some (wireEvent "e" "m.room.message" "@u:b" none [] ["$c", "$j"] ["$p"])))]

-- The ancestor cites one of two tips, so it does not become one, and then the message
-- that would cover it is soft-failed.
theorem covered_ancestor_lost :
    ¬ ∀ (plat : Platform) (room : RoomId) (jobs : List (Nat × Job)) (schedule : List Nat) (s₀ : Server),
      TipsStart room s₀ → (Prog.schedule schedule (pool plat jobs) s₀).1.all Prog.done = true →
      TipsExact room (serve plat jobs schedule s₀) := by
  intro h
  have hs := h .plain "!r:a" spamJobs (List.replicate 400 0) (.withHistory (fun _ => spamWorld) ["$a", "$b"])
    (withHistory_tips _ _ (by decide) (by decide) (by decide)) (by decide +kernel)
  have hp := (hs.mem_iff "$p").mpr ⟨by decide +kernel, by decide +kernel⟩
  exact absurd hp (by decide +kernel)

end Congruent
