import Congruent.Zoom

/-!
# Interrupted programs

A program that is dropped between two of its operations leaves what the operations
before made. Crash triples say what a program that runs alone leaves at every such
point, besides what it leaves at its end.
-/

namespace Prog

variable {S A B : Type}

/-- The number of operations of a program that runs alone. -/
def steps : Prog S A → S → Nat
  | .ret _, _ => 0
  | .op f k, s => (k (f s).1).steps (f s).2 + 1

/-- What is left when the program is dropped after `n` operations. -/
def after (n : Nat) (p : Prog S A) (s : S) : S := ((cut n p).run s).2

@[simp] theorem after_ret (n : Nat) (a : A) (s : S) : (Prog.ret a).after n s = s := by
  cases n <;> rfl

@[simp] theorem after_zero (p : Prog S A) (s : S) : p.after 0 s = s := by
  cases p <;> rfl

theorem after_bind_lt : ∀ {p : Prog S A} {n : Nat} {s : S} (k : A → Prog S B), n < p.steps s →
    (p >>= k).after n s = p.after n s
  | .ret _, _, _, _, h => absurd h (Nat.not_lt_zero _)
  | .op _ _, 0, _, _, _ => by rw [after_zero, after_zero]
  | .op f k', n + 1, s, k, h => by
    show (k' (f s).1 >>= k).after n (f s).2 = (k' (f s).1).after n (f s).2
    exact after_bind_lt k (Nat.lt_of_add_lt_add_right h)

theorem after_bind_le : ∀ {p : Prog S A} {n : Nat} {s : S} (k : A → Prog S B), p.steps s ≤ n →
    (p >>= k).after n s = (k (p.run s).1).after (n - p.steps s) (p.run s).2
  | .ret _, _, _, _, _ => rfl
  | .op _ _, 0, _, _, h => absurd h (Nat.not_succ_le_zero _)
  | .op f k', n + 1, s, k, h => by
    rw [steps, Nat.add_sub_add_right]
    exact after_bind_le k (Nat.le_of_succ_le_succ h)

/-- `I` holds before each operation, and `Q` at the end. -/
def Through (I : S → Prop) (Q : A → S → Prop) : Prog S A → S → Prop
  | .ret a, s => Q a s
  | .op f k, s => I s ∧ (k (f s).1).Through I Q (f s).2

variable {I : S → Prop} {Q : A → S → Prop} {Q' : B → S → Prop}

theorem Through.before : ∀ {p : Prog S A} {n : Nat} {s : S}, p.Through I Q s → n < p.steps s → I (p.after n s)
  | .ret _, _, _, _, h => absurd h (Nat.not_lt_zero _)
  | .op _ _, 0, _, hp, _ => hp.1
  | .op _ _, _ + 1, _, hp, h => hp.2.before (Nat.lt_of_add_lt_add_right h)

theorem Through.run : ∀ {p : Prog S A} {s : S}, p.Through I Q s → Q (p.run s).1 (p.run s).2
  | .ret _, _, hp => hp
  | .op _ _, _, hp => hp.2.run

theorem Through.mono {Q₁ : A → S → Prop} (hQ : ∀ a s, Q a s → Q₁ a s) : ∀ {p : Prog S A} {s : S}, p.Through I Q s →
    p.Through I Q₁ s
  | .ret a, s, hp => hQ a s hp
  | .op _ _, _, hp => ⟨hp.1, hp.2.mono hQ⟩

theorem Through.after : ∀ {p : Prog S A} {s : S}, p.Through I (fun _ => I) s → ∀ n, I (p.after n s)
  | .ret _, _, hp, n => by
    rw [after_ret]
    exact hp
  | .op _ _, _, hp, 0 => hp.1
  | .op _ _, _, hp, n + 1 => hp.2.after n

theorem Through.bind {k : A → Prog S B} : ∀ {p : Prog S A} {s : S}, p.Through I Q s →
    (∀ a s', Q a s' → (k a).Through I Q' s') → (p >>= k).Through I Q' s
  | .ret a, s, hp, hk => hk a s hp
  | .op _ _, _, hp, hk => ⟨hp.1, hp.2.bind hk⟩

end Prog

namespace Call

variable {E S A B : Type} {P I X : S → Prop} {Q : A → S → Prop} {R : B → S → Prop}

theorem after_bind_lt {p : Call E S A} {n : Nat} {s : S} (k : A → Call E S B) (h : n < p.run.steps s) :
    (p >>= k).run.after n s = p.run.after n s :=
  Prog.after_bind_lt _ h

theorem after_bind_le {p : Call E S A} {n : Nat} {s : S} (k : A → Call E S B) (h : p.run.steps s ≤ n) :
    (p >>= k).run.after n s = match p.exec s with
      | (.ok a, s') => (k a).run.after (n - p.run.steps s) s'
      | (.error _, s') => s' := by
  show (p.run >>= ExceptT.bindCont k).after n s = _
  rw [Prog.after_bind_le _ h]
  unfold exec
  rcases p.run.run s with ⟨r, s'⟩
  cases r with
  | ok a => rfl
  | error e => exact Prog.after_ret _ _ _

/-! ## Crash triples -/

/-- Run alone where `P` holds, the program leaves `I` wherever it is dropped, `Q` when it
succeeds and `X` when it fails. -/
def CrashTriple (P I : S → Prop) (p : Call E S A) (Q : A → S → Prop) (X : S → Prop) : Prop :=
  ∀ s, P s → p.run.Through I (fun r s => (∀ a, r = .ok a → Q a s) ∧ ∀ e, r = .error e → X s) s

theorem CrashTriple.pure (a : A) (h : ∀ s, P s → Q a s) : CrashTriple P I (Pure.pure a : Call E S A) Q X := by
  intro s hs
  refine ⟨fun b hb => ?_, fun e he => by cases he⟩
  cases hb
  exact h s hs

theorem CrashTriple.throw (e : E) (h : ∀ s, P s → X s) : CrashTriple P I
    (MonadExcept.throw e : Call E S A) Q X := by
  intro s hs
  exact ⟨fun b hb => (by cases hb), fun _ _ => h s hs⟩

theorem CrashTriple.act {f : S → Except E A × S} (hI : ∀ s, P s → I s)
    (hok : ∀ s, P s → ∀ a, (f s).1 = .ok a → Q a (f s).2) (herr : ∀ s, P s → ∀ e, (f s).1 = .error e → X (f s).2) :
    CrashTriple P I (Call.act f) Q X :=
  fun s hs => ⟨hI s hs, hok s hs, herr s hs⟩

theorem CrashTriple.read {f : S → A} (hI : ∀ s, P s → I s) (h : ∀ s, P s → Q (f s) s) :
    CrashTriple P I (Call.read f : Call E S A) Q X := by
  apply CrashTriple.act hI
  · intro s hs a ha
    cases ha
    exact h s hs
  · intro s _ e he
    cases he

theorem CrashTriple.ask {f : S → Except E A} (hI : ∀ s, P s → I s) (h : ∀ s, P s → ∀ a, f s = .ok a → Q a s)
    (hX : ∀ s, P s → X s) : CrashTriple P I (Call.ask f) Q X :=
  CrashTriple.act hI h fun s hs _ _ => hX s hs

theorem CrashTriple.modify {f : S → S} {P' : S → Prop} (hI : ∀ s, P s → I s) (h : ∀ s, P s → P' (f s)) :
    CrashTriple P I (Call.modify f : Call E S Unit) (fun _ => P') X := by
  apply CrashTriple.act hI
  · intro s hs a _
    exact h s hs
  · intro s _ e he
    cases he

theorem CrashTriple.bind {p : Call E S A} {k : A → Call E S B} (h : CrashTriple P I p Q X)
    (hk : ∀ a, CrashTriple (Q a) I (k a) R X) : CrashTriple P I (p >>= k) R X := by
  intro s hs
  apply (h s hs).bind
  intro r s' hr
  cases r with
  | ok a => exact hk a s' (hr.1 a rfl)
  | error e => exact ⟨fun b hb => (by cases hb), fun _ _ => hr.2 e rfl⟩

theorem crashTriple_and_iff {c : Prop} {p : Call E S A} :
    CrashTriple (fun s => P s ∧ c) I p Q X ↔ (c → CrashTriple P I p Q X) :=
  ⟨fun h hc s hs => h s ⟨hs, hc⟩, fun h s hs => h hs.2 s hs.1⟩

theorem CrashTriple.refuse (b : Bool) (e : E) (hX : ∀ s, P s → X s) :
    CrashTriple P I (Call.refuse b e) (fun _ => P) X := by
  unfold Call.refuse
  cases b with
  | false => exact CrashTriple.pure () fun _ h => h
  | true => exact CrashTriple.throw e hX

theorem CrashTriple.attempt {p : Call E S A} {X' : S → Prop} (h : CrashTriple P I p Q X) :
    CrashTriple P I (Call.attempt p) (fun r s => (∀ a, r = .ok a → Q a s) ∧ ∀ e, r = .error e → X s) X' := by
  intro s hs
  apply (h s hs).bind
  intro r s' hr
  refine ⟨fun a ha => ?_, fun e he => by cases he⟩
  cases ha
  exact hr

theorem CrashTriple.mono {p : Call E S A} {P' X' : S → Prop} {Q' : A → S → Prop} (h : CrashTriple P I p Q X)
    (hP : ∀ s, P' s → P s) (hQ : ∀ a s, Q a s → Q' a s) (hX : ∀ s, X s → X' s) : CrashTriple P' I p Q' X' := by
  intro s hs
  apply (h s (hP s hs)).mono
  intro r s' hr
  exact ⟨fun a ha => hQ a s' (hr.1 a ha), fun e he => hX s' (hr.2 e he)⟩

theorem CrashTriple.triple {p : Call E S A} (h : CrashTriple P I p Q X) : Triple P p Q X := by
  intro s hs
  have hend := (h s hs).run
  change (∀ a, (p.exec s).1 = .ok a → Q a (p.exec s).2) ∧ ∀ e, (p.exec s).1 = .error e → X (p.exec s).2 at hend
  refine ⟨fun a s' hp => ?_, fun e s' hp => ?_⟩
  · rw [hp] at hend
    exact hend.1 a rfl
  · rw [hp] at hend
    exact hend.2 e rfl

theorem CrashTriple.before {p : Call E S A} (h : CrashTriple P I p Q X) {s : S} (hs : P s) {n : Nat}
    (hn : n < p.run.steps s) : I (p.run.after n s) :=
  (h s hs).before hn

theorem CrashTriple.after {p : Call E S A} (h : CrashTriple P I p (fun _ => I) I) {s : S} (hs : P s) (n : Nat) :
    I (p.run.after n s) := by
  apply Prog.Through.after
  apply (h s hs).mono
  intro r s' hr
  cases r with
  | ok a => exact hr.1 a rfl
  | error e => exact hr.2 e rfl

end Call
