import Congruent.Call

/-!
# Parts of a state

A program over a part of a state runs on the whole of it and leaves the rest alone.
Triples say what a program that runs alone leaves behind, whether it succeeds or
fails.
-/

/-- A part `S` of the states `T`. -/
structure Lens (T S : Type) where
  get : T → S
  put : S → T → T
  get_put : ∀ s t, get (put s t) = s
  put_get : ∀ t, put (get t) t = t
  put_put : ∀ s s' t, put s' (put s t) = put s' t

namespace Prog

variable {S T A : Type} (l : Lens T S)

def zoom : Prog S A → Prog T A
  | .ret a => .ret a
  | .op f k => .op (fun t => ((f (l.get t)).1, l.put (f (l.get t)).2 t)) fun b => (k b).zoom

theorem run_zoom : ∀ (p : Prog S A) (t : T), (p.zoom l).run t = ((p.run (l.get t)).1, l.put (p.run (l.get t)).2 t)
  | .ret a, t => by rw [zoom, run_ret, run_ret, l.put_get]
  | .op f k, t => by rw [zoom, run_op, run_op, run_zoom (k _), l.get_put, l.put_put]

/-- What is safe on a part is safe on the whole, when steps of the part are steps of
the whole, and steps of others look like steps of the part. -/
theorem Safe.zoom {I : S → Prop} {R : S → S → Prop} {R' : T → T → Prop} {Q : A → S → Prop}
    (hrely : ∀ t t', R' t t' → R (l.get t) (l.get t')) (hguar : ∀ t s', R (l.get t) s' → R' t (l.put s' t)) :
    ∀ {p : Prog S A} {t : T}, Safe I R Q p (l.get t) →
      Safe (fun t => I (l.get t)) R' (fun a t => Q a (l.get t)) (p.zoom l) t
  | .ret _, _, h => fun t' hr hi => h (l.get t') (hrely _ _ hr) hi
  | .op f k, _, h => fun t' hr hi => by
    obtain ⟨hi', hr', hk⟩ := h (l.get t') (hrely _ _ hr) hi
    refine ⟨by simpa only [l.get_put] using hi', hguar _ _ hr', ?_⟩
    exact Safe.zoom hrely hguar (by simpa only [l.get_put] using hk)

end Prog

namespace Call

variable {E S T A B : Type} (l : Lens T S)

def zoom (p : Call E S A) : Call E T A := ExceptT.mk (p.run.zoom l)

theorem exec_zoom (p : Call E S A) (t : T) :
    (p.zoom l).exec t = ((p.exec (l.get t)).1, l.put (p.exec (l.get t)).2 t) :=
  Prog.run_zoom l p.run t

/-- A program that cannot fail. -/
def ofProg (p : Prog S A) : Call E S A := ExceptT.mk (p >>= fun a => pure (.ok a))

theorem exec_ofProg (p : Prog S A) (s : S) : (ofProg p : Call E S A).exec s = (.ok (p.run s).1, (p.run s).2) := by
  show Prog.run (p >>= fun a => (pure (Except.ok a) : Prog S (Except E A))) s = _
  rw [Prog.run_bind]
  rfl

/-! ## Triples -/

/-- Run alone where `P` holds, the program leaves `Q` when it succeeds and `X` when
it fails. -/
def Triple (P : S → Prop) (p : Call E S A) (Q : A → S → Prop) (X : S → Prop) : Prop :=
  ∀ s, P s → (∀ a s', p.exec s = (.ok a, s') → Q a s') ∧ ∀ e s', p.exec s = (.error e, s') → X s'

/-- The program leaves `P` as it is, whatever its outcome. -/
abbrev Leaves (P : S → Prop) (p : Call E S A) : Prop := Triple P p (fun _ => P) P

variable {l} {P P' X X' : S → Prop} {Q Q' : A → S → Prop} {R : B → S → Prop}

theorem Triple.state {p : Call E S A} (h : Triple P p (fun _ => P') P') {s : S} (hs : P s) : P' (p.exec s).2 := by
  rcases hp : p.exec s with ⟨r, s'⟩
  cases r with
  | ok a => exact (h s hs).1 a s' hp
  | error e => exact (h s hs).2 e s' hp

theorem Triple.pure (a : A) (h : ∀ s, P s → Q a s) : Triple P (Pure.pure a : Call E S A) Q X := by
  intro s hs
  refine ⟨fun b s' hp => ?_, fun e s' hp => by cases hp⟩
  cases hp
  exact h s hs

theorem Triple.throw (e : E) (h : ∀ s, P s → X s) : Triple P (MonadExcept.throw e : Call E S A) Q X := by
  intro s hs
  refine ⟨fun b s' hp => (by cases hp), fun e s' hp => ?_⟩
  cases hp
  exact h s hs

theorem Triple.refuse {b : Bool} (e : E) (h : ∀ s, P s → b = true → X s) :
    Triple P (Call.refuse b e) (fun _ s => P s ∧ b = false) X := by
  unfold Call.refuse
  cases b with
  | false => exact Triple.pure () fun s hs => ⟨hs, rfl⟩
  | true => exact Triple.throw e fun s hs => h s hs rfl

theorem Triple.modify {f : S → S} (h : ∀ s, P s → P' (f s)) :
    Triple P (Call.modify f : Call E S Unit) (fun _ => P') X := by
  intro s hs
  refine ⟨fun a s' hp => ?_, fun e s' hp => by cases hp⟩
  cases hp
  exact h s hs

theorem Triple.read {f : S → A} (h : ∀ s, P s → Q (f s) s) : Triple P (Call.read f : Call E S A) Q X := by
  intro s hs
  refine ⟨fun a s' hp => ?_, fun e s' hp => by cases hp⟩
  cases hp
  exact h s hs

theorem Triple.bind {p : Call E S A} {k : A → Call E S B} (h : Triple P p Q X)
    (hk : ∀ a, Triple (Q a) (k a) R X) : Triple P (p >>= k) R X := by
  intro s hs
  rw [exec_bind]
  rcases hp : p.exec s with ⟨r, s₁⟩
  cases r with
  | ok a => exact hk a s₁ ((h s hs).1 a s₁ hp)
  | error e =>
    refine ⟨fun b s' hb => (by cases hb), fun e s' he => ?_⟩
    cases he
    exact (h s hs).2 _ _ hp

theorem Triple.read_bind {f : S → A} {k : A → Call E S B} {a : A} (hf : ∀ s, P s → f s = a)
    (hk : Triple P (k a) R X) :
    Triple P (Call.read f >>= k) R X := by
  intro s hs
  rw [exec_bind]
  show (∀ b s', (k (f s)).exec s = (.ok b, s') → R b s') ∧ ∀ e s', (k (f s)).exec s = (.error e, s') → X s'
  rw [hf s hs]
  exact hk s hs

theorem Triple.mono {p : Call E S A} (h : Triple P p Q X) (hP : ∀ s, P' s → P s) (hQ : ∀ a s, Q a s → Q' a s)
    (hX : ∀ s, X s → X' s) : Triple P' p Q' X' :=
  fun s hs => ⟨fun a s' hp => hQ a s' ((h s (hP s hs)).1 a s' hp), fun e s' hp => hX s' ((h s (hP s hs)).2 e s' hp)⟩

theorem Triple.assume {c : Prop} {p : Call E S A} (h : c → Triple P p Q X) : Triple (fun s => P s ∧ c) p Q X :=
  fun s hs => h hs.2 s hs.1

theorem Triple.zoom {p : Call E S A} {F : T → Prop} (h : Triple P p Q X) (hF : ∀ s t, F t → F (l.put s t)) :
    Triple (fun t => P (l.get t) ∧ F t) (p.zoom l) (fun a t => Q a (l.get t) ∧ F t) fun t => X (l.get t) ∧ F t := by
  intro t ht
  rw [exec_zoom]
  obtain ⟨hok, herr⟩ := h (l.get t) ht.1
  refine ⟨fun a t' hp => ?_, fun e t' hp => ?_⟩
  · obtain ⟨hr, rfl⟩ := Prod.mk.inj hp
    rw [l.get_put]
    exact ⟨hok a _ (Prod.ext hr rfl), hF _ _ ht.2⟩
  · obtain ⟨hr, rfl⟩ := Prod.mk.inj hp
    rw [l.get_put]
    exact ⟨herr e _ (Prod.ext hr rfl), hF _ _ ht.2⟩

theorem Triple.and {p : Call E S A} (h : Triple P p Q X) (h' : Triple P' p Q' X') :
    Triple (fun s => P s ∧ P' s) p (fun a s => Q a s ∧ Q' a s) fun s => X s ∧ X' s :=
  fun s hs => ⟨fun a s' hp => ⟨(h s hs.1).1 a s' hp, (h' s hs.2).1 a s' hp⟩,
    fun e s' hp => ⟨(h s hs.1).2 e s' hp, (h' s hs.2).2 e s' hp⟩⟩

theorem Triple.foldlM {f : Unit → A → Call E S Unit} {J : List A → S → Prop} : ∀ (xs : List A),
    (∀ x xs, Triple (J (x :: xs)) (f () x) (fun _ => J xs) X) → Triple (J xs) (xs.foldlM f ()) (fun _ => J []) X
  | [], _ => Triple.pure () fun _ h => h
  | x :: xs, h => by
    rw [List.foldlM_cons]
    exact (h x xs).bind fun _ => Triple.foldlM xs h

theorem Ensures.zoom {T₀ : S → S → Prop} {T₁ : T → T → Prop} {p : Call E S A} {t : T}
    (hrely : ∀ t t', T₁ t t' → Relation.ReflTransGen T₀ (l.get t) (l.get t'))
    (hguar : ∀ t s', T₀ (l.get t) s' → T₁ t (l.put s' t)) (h : Ensures T₀ Q p (l.get t)) :
    Ensures T₁ (fun a t => Q a (l.get t)) (p.zoom l) t := by
  refine Prog.Safe.zoom l (fun t t' hr => ?_) (fun t s' hr => ?_) h
  · induction hr with
    | refl => exact .refl
    | tail _ hst ih => exact ih.trans (hrely _ _ hst)
  · induction hr with
    | refl =>
      rw [l.put_get]
    | @tail s₁ s₂ _ hst ih =>
      refine ih.tail ?_
      have h₁ := hguar (l.put s₁ t) s₂ (by rw [l.get_put]; exact hst)
      rwa [l.put_put] at h₁

theorem Leaves.of_keeps (T₀ : S → S → Prop) {p : Call E S A} (h : ∀ s, Keeps T₀ p s)
    (hP : ∀ s s', T₀ s s' → P s → P s') : Leaves P p := by
  intro s hs
  have hpath : ∀ s', Relation.ReflTransGen T₀ s s' → P s' := by
    intro s' hr
    induction hr with
    | refl => exact hs
    | tail _ hst ih => exact hP _ _ hst ih
  have hend := hpath _ (h s).solo.1
  refine ⟨fun a s' hp => ?_, fun e s' hp => ?_⟩
  · rwa [hp] at hend
  · rwa [hp] at hend

theorem Leaves.zoom {T' : S → S → Prop} {p : Call E S A} {J : T → Prop} (h : ∀ s, Keeps T' p s)
    (hJ : ∀ t s', Relation.ReflTransGen T' (l.get t) s' → J t → J (l.put s' t)) : Leaves J (p.zoom l) := by
  intro t ht
  have hstep := hJ t _ (h (l.get t)).solo.1 ht
  rw [exec_zoom]
  refine ⟨fun a t' hp => ?_, fun e t' hp => ?_⟩
  · obtain ⟨-, rfl⟩ := Prod.mk.inj hp
    exact hstep
  · obtain ⟨-, rfl⟩ := Prod.mk.inj hp
    exact hstep

end Call
