import Congruent.Federation

/-!
# What the log tells

The log only grows, so each mark points to the moment it was made, with the log as
it was then. Whatever is in the stores was there at the start or left a mark.
-/

namespace Congruent

/-! ## Logs -/

section
variable {P : Mark → List Mark → Prop} {l l' : List Mark} {m : Mark}

theorem Always.head (h : Always P (m :: l)) : P m l := by
  cases h
  assumption

theorem Always.tail (h : Always P (m :: l)) : Always P l := by
  cases h
  assumption

theorem Always.of_append : ∀ (l : List Mark), Always P (l ++ l') → Always P l'
  | [], h => h
  | _ :: l, h => Always.of_append l h.tail

theorem Always.of_suffix (h : l' <:+ l) (ha : Always P l) : Always P l' := by
  obtain ⟨l₀, rfl⟩ := h
  exact Always.of_append l₀ ha

theorem Always.at (h : m :: l' <:+ l) (ha : Always P l) : P m l' := (ha.of_suffix h).head

end

/-- Marks that are only ever noted. -/
def Mark.noted : Mark → Bool
  | returned .. | unrejected .. | stored .. | tips .. | appended .. => false
  | _ => true

section
variable {plat : Platform} {s₀ s t : Server} {m : Mark} {w : Write}

theorem Step.suffix {s s' : Server} (h : Step plat s s') : s.log <:+ s'.log := by
  cases h with
  | write w _ => exact ⟨_, (w.apply_log).symm⟩

theorem Path.suffix (h : Path plat t s) : t.log <:+ s.log := by
  induction h with
  | refl => exact List.suffix_rfl
  | tail _ hst ih => exact ih.trans hst.suffix

theorem Path.moment (h : Path plat s₀ s) (hm : m ∈ s.log) :
    m ∈ s₀.log ∨ ∃ (t : Server) (w : Write), Path plat s₀ t ∧ w.Allowed plat t ∧ m ∈ w.marks plat t ∧
      Path plat (w.apply plat t) s := by
  induction h with
  | refl => exact .inl hm
  | @tail t _ hp hst ih =>
    cases hst with
    | write w hw =>
      rw [w.apply_log, List.mem_append] at hm
      rcases hm with hm | hm
      · exact .inr ⟨t, w, hp, hw, hm, .refl⟩
      · refine (ih hm).imp_right fun ⟨t', w', hp', hw', hm', hr'⟩ => ⟨t', w', hp', hw', hm', ?_⟩
        exact hr'.tail (.write t w hw)

theorem Write.eq_note (hn : m.noted) (hm : m ∈ w.marks plat t) : w = .note m := by
  cases w with
  | note m' =>
    rw [List.mem_singleton.mp hm]
  | addPduOutlier room id json =>
    unfold marks at hm
    simp only at hm
    split at hm
    · cases hm
    · rw [List.mem_singleton.mp hm] at hn
      cases hn
  | accept how room id value json =>
    rw [List.mem_singleton.mp hm] at hn
    cases hn
  | unreject call id =>
    rw [List.mem_singleton.mp hm] at hn
    cases hn
  | append a =>
    simp only [marks, List.mem_cons, List.not_mem_nil, or_false] at hm
    rcases hm with rfl | rfl | rfl <;> cases hn
  | _ => cases hm

theorem Path.noted (h : Path plat s₀ s) (h₀ : s₀.log = []) (hn : m.noted) (hm : m ∈ s.log) :
    ∃ t, Path plat s₀ t ∧ Path plat t s ∧ m.Allowed plat t ∧ m :: t.log <:+ s.log := by
  rcases h.moment hm with hm | ⟨t, w, hp, hw, hm, hr⟩
  · rw [h₀] at hm
    cases hm
  · obtain rfl := Write.eq_note hn hm
    exact ⟨t, hp, .head (.write t _ hw) hr, hw, Path.suffix hr⟩

theorem Path.returned {how : How} {room : RoomId} {id : EventId} {value json : Object} (h : Path plat s₀ s)
    (h₀ : s₀.log = []) (hm : .returned how room id value json ∈ s.log) :
    ∃ t, Path plat s₀ t ∧ Path plat t s ∧ how.Allowed plat t room id value json ∧
      .returned how room id value json :: t.log <:+ s.log := by
  rcases h.moment hm with hm | ⟨t, w, hp, hw, hm, hr⟩
  · rw [h₀] at hm
    cases hm
  · have hs := Path.suffix hr
    rw [w.apply_log] at hs
    have hr' : Path plat t s := .head (.write t w hw) hr
    cases w with
    | note m' =>
      obtain rfl := List.mem_singleton.mp hm
      exact ⟨t, hp, hr', hw.2, hs⟩
    | accept how' room' id' value' json' =>
      cases List.mem_singleton.mp hm
      exact ⟨t, hp, hr', hw.2, hs⟩
    | addPduOutlier room' id' json' =>
      unfold Write.marks at hm
      simp only at hm
      split at hm <;> simp at hm
    | unreject call id' => simp [Write.marks] at hm
    | append a => simp [Write.marks] at hm
    | _ => cases hm

theorem Path.always {P : Mark → List Mark → Prop} (h : Path plat s₀ s) (h₀ : s₀.log = [])
    (hw : ∀ (t : Server) (w : Write), Path plat s₀ t → w.Allowed plat t → Path plat (w.apply plat t) s →
      Always P t.log → Always P (w.marks plat t ++ t.log)) : Always P s.log := by
  induction h with
  | refl =>
    rw [h₀]
    exact .nil
  | @tail t _ hp hst ih =>
    cases hst with
    | write w hwt =>
      rw [w.apply_log]
      refine hw t w hp hwt .refl (ih fun t' w' hp' hwt' hr' => hw t' w' hp' hwt' (hr'.tail (.write t w hwt)))

/-! ## Appended events -/

def Mark.isAppended : Mark → Bool
  | appended .. => true
  | _ => false

def Server.appendMark (s : Server) (plat : Platform) (a : Append) : Mark :=
  .appended a.call a.room a.pdu.eventId a.pdu.prevEvents (s.appendedJson plat a) a.isTimelineEvent

def Server.appendLog (s : Server) (plat : Platform) (a : Append) : List Mark :=
  .stored a.room a.pdu.eventId (s.appendedJson plat a) ::
    .tips a.room (s.pduleaves a.room) ((s.pduleaves a.room).filter fun x => !s.mayBeTip a.pdu.eventId x) :: s.log

theorem suffix_appendLog (a : Append) : t.log <:+ t.appendLog plat a :=
  (List.suffix_cons _ _).trans (List.suffix_cons _ _)

theorem Path.always_appended {P : Mark → List Mark → Prop} (h : Path plat s₀ s) (h₀ : s₀.log = [])
    (hP : ∀ m l, m.isAppended = false → P m l)
    (ha : ∀ (t : Server) (a : Append), Path plat s₀ t → (Write.append a).Allowed plat t →
      t.appendMark plat a :: t.appendLog plat a <:+ s.log → P (t.appendMark plat a) (t.appendLog plat a)) :
    Always P s.log := by
  refine h.always h₀ fun t w hp hw hr hal => ?_
  cases w with
  | note m =>
    refine .cons ?_ hal
    cases m with
    | appended call room id prevs json flag => exact hw.elim
    | _ => exact hP _ _ rfl
  | addPduOutlier room id json =>
    unfold Write.marks
    simp only
    split
    · exact hal
    · exact .cons (hP _ _ rfl) hal
  | accept how room id value json => exact .cons (hP _ _ rfl) hal
  | unreject call id => exact .cons (hP _ _ rfl) hal
  | append a => exact .cons (ha t a hp hw (Path.suffix hr)) (.cons (hP _ _ rfl) (.cons (hP _ _ rfl) hal))
  | _ => exact hal

/-! ## Stored events -/

def Copied (s₀ : Server) (log : List Mark) (id : EventId) (json : Object) : Prop :=
  s₀.eventidPdu id = some json ∨ ∃ room, .stored room id json ∈ log

theorem Copied.mono {l l' : List Mark} (h : ∀ m ∈ l, m ∈ l') {id : EventId} {json : Object}
    (hc : Copied s₀ l id json) : Copied s₀ l' id json :=
  hc.imp_right fun ⟨room, hm⟩ => ⟨room, h _ hm⟩

theorem Write.stored {id : EventId} {json : Object} (h : (w.apply plat t).eventidPdu id = some json) :
    t.eventidPdu id = some json ∨ ∃ room, .stored room id json ∈ w.marks plat t := by
  cases w with
  | addPduOutlier room x json' =>
    change (t.addPduOutlier plat room x json').eventidPdu id = some json at h
    unfold Server.addPduOutlier at h
    split at h
    · exact .inl h
    · rename_i hm
      by_cases hx : id = x
      · subst hx
        refine .inr ⟨room, ?_⟩
        simp only [Function.update_self, Option.some.injEq] at h
        simp [marks, hm, h]
      · simp only [Function.update_of_ne hx] at h
        exact .inl h
  | markEventRejected x code =>
    change (t.markEventRejected x code).eventidPdu id = some json at h
    unfold Server.markEventRejected at h
    split at h <;> exact .inl h
  | append a =>
    change Function.update t.eventidPdu a.pdu.eventId (some (t.appendedJson plat a)) id = some json at h
    by_cases hx : id = a.pdu.eventId
    · subst hx
      rw [Function.update_self] at h
      cases h
      exact .inr ⟨a.room, by simp [marks]⟩
    · rw [Function.update_of_ne hx] at h
      exact .inl h
  | _ => exact .inl h

theorem Path.copied (h : Path plat s₀ s) {id : EventId} {json : Object} (hj : s.eventidPdu id = some json) :
    Copied s₀ s.log id json := by
  induction h with
  | refl => exact .inl hj
  | @tail t _ hp hst ih =>
    cases hst with
    | write w hw =>
      rcases Write.stored hj with hj | ⟨room, hm⟩
      · exact (ih hj).mono fun _ hm => Step.log (.write t w hw) hm
      · refine .inr ⟨room, ?_⟩
        rw [w.apply_log]
        exact List.mem_append_left _ hm

theorem Path.readBack (h : Path plat s₀ s) (h₀ : s₀.log = []) {room : RoomId} {id : EventId} {json : Object}
    (hm : .readBack room id json ∈ s.log) : Copied s₀ s.log id json := by
  obtain ⟨t, hp, hr, hj, _⟩ := h.noted h₀ rfl hm
  exact (Path.copied hp hj).mono fun _ hm' => Path.log hr hm'

end

end Congruent
