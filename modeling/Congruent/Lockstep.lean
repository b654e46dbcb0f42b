import Congruent.Call

/-!
# Programs in lockstep

Two programs that run alone from related states end in related states, with related
answers or with the same error. A program that is in lockstep with itself does not
tell related states apart.
-/

namespace Call

variable {E S A B : Type}

/-- Related answers, or the same error. -/
inductive Alike (Q : A → A → Prop) : Except E A → Except E A → Prop
  | ok {a a' : A} (h : Q a a') : Alike Q (.ok a) (.ok a')
  | error (e : E) : Alike Q (.error e) (.error e)

theorem Alike.eq {r r' : Except E A} (h : Alike Eq r r') : r = r' := by
  cases h with
  | ok h => rw [h]
  | error e => rfl

/-- From states related by `R`, the programs end in such states, with answers related by
`Q` or with the same error. -/
def Lockstep (R : S → S → Prop) (Q : A → A → Prop) (p p' : Call E S A) : Prop :=
  ∀ s s', R s s' → R (p.exec s).2 (p'.exec s').2 ∧ Alike Q (p.exec s).1 (p'.exec s').1

/-- An answer the program may come to. -/
def Answers (R : S → S → Prop) (p : Call E S A) (a : A) : Prop := ∃ s s', R s s' ∧ (p.exec s).1 = .ok a

abbrev Same (R : S → S → Prop) (p p' : Call E S A) : Prop := Lockstep R Eq p p'

variable {R : S → S → Prop} {Q : A → A → Prop} {Q' : B → B → Prop}

theorem Lockstep.pure {a a' : A} (h : Q a a') : Lockstep R Q (Pure.pure a : Call E S A) (Pure.pure a') :=
  fun _ _ hs => ⟨hs, .ok h⟩

theorem Lockstep.throw (e : E) : Lockstep R Q (MonadExcept.throw e : Call E S A) (MonadExcept.throw e) :=
  fun _ _ hs => ⟨hs, .error e⟩

theorem Lockstep.act {f f' : S → Except E A × S}
    (h : ∀ s s', R s s' → R (f s).2 (f' s').2 ∧ Alike Q (f s).1 (f' s').1) : Lockstep R Q
      (Call.act f) (Call.act f') :=
  h

theorem Lockstep.read {f f' : S → A} (h : ∀ s s', R s s' → Q (f s) (f' s')) :
    Lockstep R Q (Call.read f : Call E S A) (Call.read f') :=
  fun s s' hs => ⟨hs, .ok (h s s' hs)⟩

theorem Lockstep.modify {f f' : S → S} (h : ∀ s s', R s s' → R (f s) (f' s')) :
    Same R (Call.modify f : Call E S Unit) (Call.modify f') :=
  fun s s' hs => ⟨h s s' hs, .ok rfl⟩

theorem Lockstep.bind {p p' : Call E S A} {k k' : A → Call E S B} (h : Lockstep R Q p p')
    (hk : ∀ a a', Q a a' → Lockstep R Q' (k a) (k' a')) : Lockstep R Q' (p >>= k) (p' >>= k') := by
  intro s s' hs
  obtain ⟨hR, hres⟩ := h s s' hs
  rw [exec_bind, exec_bind]
  rcases hp : p.exec s with ⟨r, s₁⟩
  rcases hp' : p'.exec s' with ⟨r', s₁'⟩
  rw [hp, hp'] at hR hres
  cases hres with
  | ok h => exact hk _ _ h s₁ s₁' hR
  | error e => exact ⟨hR, .error e⟩

theorem Lockstep.andThen {p p' : Call E S A} {k k' : A → Call E S B} (h : Same R p p')
    (hk : ∀ a, Lockstep R Q' (k a) (k' a)) : Lockstep R Q' (p >>= k) (p' >>= k') :=
  h.bind fun a _ ha => ha ▸ hk a

theorem Lockstep.mono {p p' : Call E S A} {Q₁ : A → A → Prop} (h : Lockstep R Q p p')
    (hQ : ∀ a a', Q a a' → Q₁ a a') :
    Lockstep R Q₁ p p' := by
  intro s s' hs
  obtain ⟨hR, hres⟩ := h s s' hs
  refine ⟨hR, ?_⟩
  generalize (p.exec s).1 = r at hres
  generalize (p'.exec s').1 = r' at hres
  cases hres with
  | ok h => exact .ok (hQ _ _ h)
  | error e => exact .error e

theorem Lockstep.attempt {p p' : Call E S A} (h : Lockstep R Q p p') :
    Lockstep R (Alike Q) (Call.attempt p) (Call.attempt p') := by
  intro s s' hs
  rw [exec_attempt, exec_attempt]
  exact ⟨(h s s' hs).1, .ok (h s s' hs).2⟩

theorem Same.attempt {p p' : Call E S A} (h : Same R p p') : Same R (Call.attempt p) (Call.attempt p') :=
  (Lockstep.attempt h).mono fun _ _ ha => ha.eq

theorem Same.answers {p p' : Call E S A} (h : Same R p p') : Lockstep R (fun a a' => a = a' ∧
    Answers R p a) p p' := by
  intro s s' hs
  obtain ⟨hR, hres⟩ := h s s' hs
  refine ⟨hR, ?_⟩
  rcases hp : (p.exec s).1 with e | a
  · rw [hp] at hres
    rw [← hres.eq]
    exact .error e
  · rw [hp] at hres
    rw [← hres.eq]
    exact .ok ⟨rfl, s, s', hs, hp⟩

theorem Answers.pure {a b : A} (h : Answers R (Pure.pure a : Call E S A) b) : a = b := by
  obtain ⟨s, s', -, hp⟩ := h
  exact Except.ok.inj hp

theorem Answers.throw {e : E} {a : A} (h : Answers R (MonadExcept.throw e : Call E S A) a) : False := by
  obtain ⟨s, s', -, hp⟩ := h
  cases hp

theorem Answers.bind {p p' : Call E S A} {k : A → Call E S B} {b : B} (h : Answers R (p >>= k) b)
    (hp : Lockstep R Q p p') :
    ∃ a, Answers R p a ∧ Answers R (k a) b := by
  obtain ⟨s, s', hs, hb⟩ := h
  rw [exec_bind] at hb
  rcases ha : p.exec s with ⟨r, s₁⟩
  rw [ha] at hb
  cases r with
  | ok a =>
    have hR := (hp s s' hs).1
    rw [ha] at hR
    refine ⟨a, ⟨s, s', hs, ?_⟩, ⟨s₁, _, hR, hb⟩⟩
    rw [ha]
  | error e => cases hb

theorem Answers.attempt {p : Call E S A} {a : A} (h : Answers R (Call.attempt p) (.ok a)) : Answers R p a := by
  obtain ⟨s, s', hs, hp⟩ := h
  rw [exec_attempt] at hp
  exact ⟨s, s', hs, Except.ok.inj hp⟩

theorem Lockstep.foldlM {f f' : B → A → Call E S B} : ∀ (xs : List A) {b b' : B},
    (∀ b b', ∀ x ∈ xs, Q' b b' → Lockstep R Q' (f b x) (f' b' x)) → Q' b b' →
      Lockstep R Q' (xs.foldlM f b) (xs.foldlM f' b')
  | [], _, _, _, hb => Lockstep.pure hb
  | x :: xs, b, b', h, hb => by
    rw [List.foldlM_cons, List.foldlM_cons]
    apply (h b b' x (by simp) hb).bind
    intro c c' hc
    exact Lockstep.foldlM xs (fun b b' y hy => h b b' y (by simp [hy])) hc

theorem Same.foldlM {f f' : B → A → Call E S B} (xs : List A) {b : B} (h : ∀ b, ∀ x ∈ xs, Same R (f b x) (f' b x)) :
    Same R (xs.foldlM f b) (xs.foldlM f' b) :=
  Lockstep.foldlM xs (fun b _ x hx hb => hb ▸ h b x hx) rfl

theorem Same.exec_eq {p p' : Call E S A} (h : Same R p p') {s s' : S}
    (hs : R s s') : (p.exec s).1 = (p'.exec s').1 :=
  (h s s' hs).2.eq

end Call
