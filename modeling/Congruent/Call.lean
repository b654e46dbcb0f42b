import Congruent.Prog
import Mathlib.Logic.Relation

/-!
# Programs that may fail

Programs with an error, cut off after a number of operations or run in one
step, and a rule for what each success of such a program ensures while other
programs take steps of a relation in between.
-/

namespace Prog

variable {S A B : Type}

/-- Runs a program in one step, as under a lock. -/
def atomic (p : Prog S A) : Prog S A := act p.run

/-- At most `n` operations of a program; `none` when it is dropped before its end. -/
def cut : Nat → Prog S A → Prog S (Option A)
  | _, .ret a => .ret (some a)
  | 0, .op _ _ => .ret none
  | n + 1, .op f k => .op f fun b => cut n (k b)

@[simp] theorem run_atomic (p : Prog S A) (s : S) : (atomic p).run s = p.run s := rfl

section
variable {I : S → Prop} {R : S → S → Prop} {Q : A → S → Prop}
  (hrefl : ∀ s, R s s) (htrans : ∀ a b c, R a b → R b c → R a c)

theorem Safe.cut : ∀ (n : Nat) {p : Prog S A} {s : S}, Safe I R Q p s →
    Safe I R (fun o s => ∀ a, o = some a → Q a s) (Prog.cut n p) s
  | 0, .ret a, _, h => fun s' hr hi b hb => by cases hb; exact h s' hr hi
  | _ + 1, .ret a, _, h => fun s' hr hi b hb => by cases hb; exact h s' hr hi
  | 0, .op _ _, _, _ => fun _ _ _ _ hb => by cases hb
  | n + 1, .op _ _, _, h => fun s' hr hi => ⟨(h s' hr hi).1, (h s' hr hi).2.1, Safe.cut n (h s' hr hi).2.2⟩

theorem Safe.map {Q' : B → S → Prop} {g : A → B} (hQ : ∀ a s, Q a s → Q' (g a) s) :
    ∀ {p : Prog S A} {s : S}, Safe I R Q p s → Safe I R Q' (p >>= fun a => pure (g a)) s
  | .ret _, _, h => fun s' hr hi => hQ _ _ (h s' hr hi)
  | .op _ _, _, h => fun s' hr hi => ⟨(h s' hr hi).1, (h s' hr hi).2.1, Safe.map hQ (h s' hr hi).2.2⟩

end

end Prog

/-- A program that may fail. -/
abbrev Call (E S A : Type) := ExceptT E (Prog S) A

namespace Call

variable {E S A B : Type}

/-- One operation that may fail. -/
def act (f : S → Except E A × S) : Call E S A := ExceptT.mk (Prog.act f)

/-- Reads the state. -/
def read (f : S → A) : Call E S A := act fun s => (.ok (f s), s)

/-- Reads the state, and may fail. -/
def ask (f : S → Except E A) : Call E S A := act fun s => (f s, s)

/-- Changes the state. -/
def modify (f : S → S) : Call E S Unit := act fun s => (.ok (), f s)

/-- The outcome of a program, error or not. -/
def attempt (p : Call E S A) : Call E S (Except E A) := ExceptT.mk (p.run >>= fun r => pure (.ok r))

/-- Runs a program in one step. -/
def atomic (p : Call E S A) : Call E S A := ExceptT.mk p.run.atomic

/-- Goes on only when a condition does not hold. -/
def refuse (b : Bool) (e : E) : Call E S Unit := if b then throw e else pure ()

section
variable (T : S → S → Prop)

/-- From `s` on, whatever steps of `T` others take, the program takes only steps
of `T`, and what it answers satisfies `Q`. -/
def Ensures (Q : A → S → Prop) (p : Call E S A) (s : S) : Prop :=
  Prog.Safe (fun _ => True) (Relation.ReflTransGen T) (fun r s => ∀ a, r = .ok a → Q a s) p.run s

/-- A program about whose answer nothing is said. -/
abbrev Keeps (p : Call E S A) (s : S) : Prop := Ensures T (fun _ _ => True) p s

variable {T} {Q : A → S → Prop} {Q' : B → S → Prop} {s s' : S}

theorem steps_refl (s : S) : Relation.ReflTransGen T s s := .refl

theorem steps_trans (a b c : S) (h : Relation.ReflTransGen T a b) (h' : Relation.ReflTransGen T b c) :
    Relation.ReflTransGen T a c := h.trans h'

theorem Ensures.later {p : Call E S A} (h : Ensures T Q p s) (hr : Relation.ReflTransGen T s s') :
    Ensures T Q p s' :=
  Prog.Guarded.rely steps_trans h hr

theorem Ensures.pure {a : A} (h : ∀ s', Relation.ReflTransGen T s s' → Q a s') :
    Ensures T Q (Pure.pure a : Call E S A) s := by
  intro s' hr _ b hb
  cases hb
  exact h s' hr

theorem Ensures.throw {e : E} : Ensures T Q (MonadExcept.throw e : Call E S A) s := by
  intro s' _ _ b hb
  cases hb

theorem Ensures.act {f : S → Except E A × S}
    (h : ∀ s', Relation.ReflTransGen T s s' → Relation.ReflTransGen T s' (f s').2 ∧
      ∀ a, (f s').1 = .ok a → ∀ s'', Relation.ReflTransGen T (f s').2 s'' → Q a s'') :
    Ensures T Q (Call.act f) s := by
  intro s' hr _
  obtain ⟨h1, h2⟩ := h s' hr
  exact ⟨trivial, h1, fun s'' hr' _ a ha => h2 a ha s'' hr'⟩

theorem Ensures.read {f : S → A} : Keeps T (Call.read f : Call E S A) s :=
  Ensures.act fun _ _ => ⟨.refl, fun _ _ _ _ => trivial⟩

theorem Ensures.ask {f : S → Except E A} : Keeps T (Call.ask f) s :=
  Ensures.act fun _ _ => ⟨.refl, fun _ _ _ _ => trivial⟩

theorem Ensures.modify {f : S → S}
    (h : ∀ s', Relation.ReflTransGen T s s' → Relation.ReflTransGen T s' (f s')) :
    Keeps T (Call.modify f : Call E S Unit) s :=
  Ensures.act fun s' hr => ⟨h s' hr, fun _ _ _ _ => trivial⟩

theorem Ensures.mono {Q₁ : A → S → Prop} {p : Call E S A} (h : Ensures T Q₁ p s) (hQ : ∀ a s, Q₁ a s → Q a s) :
    Ensures T Q p s :=
  Prog.Guarded.mono (fun _ s _ hq a ha => hQ a s (hq a ha)) h

theorem Ensures.keeps {p : Call E S A} (h : Ensures T Q p s) : Keeps T p s :=
  h.mono fun _ _ _ => trivial

theorem Ensures.bind {p : Call E S A} {k : A → Call E S B} (h : Ensures T Q p s)
    (hk : ∀ a s', Relation.ReflTransGen T s s' → Q a s' → Ensures T Q' (k a) s') :
    Ensures T Q' (p >>= k) s := by
  refine Prog.Safe.bind steps_refl steps_trans h fun r s' hr _ hq => ?_
  cases r with
  | ok a => exact hk a s' hr (hq a rfl)
  | error e => exact fun s'' _ _ b hb => by cases hb

theorem Ensures.andThen {p : Call E S A} {k : A → Call E S B} (h : Keeps T p s)
    (hk : ∀ a, Ensures T Q' (k a) s) : Ensures T Q' (p >>= k) s :=
  h.bind fun a _ hr _ => (hk a).later hr

theorem Ensures.refuse {b : Bool} {e : E} : Ensures T (fun _ _ => b = false) (Call.refuse b e) s := by
  unfold Call.refuse
  cases b with
  | false => exact Ensures.pure fun _ _ => rfl
  | true => exact Ensures.throw

theorem Ensures.attempt {p : Call E S A} (h : Ensures T Q p s) :
    Ensures T (fun r s => ∀ a, r = .ok a → Q a s) (Call.attempt p) s := by
  refine Prog.Safe.map (fun r s hq r' hr' => ?_) h
  cases hr'
  exact hq

theorem Ensures.foldlM {J : B → S → Prop} {f : B → A → Call E S B} :
    ∀ (xs : List A) {b : B} {s : S}, (∀ b s', Relation.ReflTransGen T s s' → J b s' →
      ∀ s'', Relation.ReflTransGen T s' s'' → J b s'') →
    (∀ b, ∀ a ∈ xs, ∀ s', Relation.ReflTransGen T s s' → J b s' → Ensures T J (f b a) s') → J b s →
    Ensures T J (xs.foldlM f b) s
  | [], b, s, hJ, _, hb => Ensures.pure fun s' hr => hJ b s .refl hb s' hr
  | a :: xs, b, s, hJ, hf, hb => by
    rw [List.foldlM_cons]
    refine (hf b a (by simp) s .refl hb).bind fun b' s' hr hb' => ?_
    refine Ensures.foldlM xs (fun c s₁ hr₁ => hJ c s₁ (hr.trans hr₁)) (fun c x hx s₁ hr₁ => ?_) hb'
    exact hf c x (by simp [hx]) s₁ (hr.trans hr₁)

theorem Ensures.foldlM_keeps {f : B → A → Call E S B} (xs : List A) {b : B} {s : S}
    (hf : ∀ b, ∀ a ∈ xs, Keeps T (f b a) s) : Keeps T (xs.foldlM f b) s :=
  Ensures.foldlM xs (fun _ _ _ _ _ _ => trivial) (fun b a ha _ hr _ => (hf b a ha).later hr) trivial

end

/-! ## Running alone -/

/-- The outcome of a program that runs alone, and the state it ends in. -/
def exec (p : Call E S A) (s : S) : Except E A × S := p.run.run s

@[simp] theorem exec_pure (a : A) (s : S) : (pure a : Call E S A).exec s = (.ok a, s) := rfl

@[simp] theorem exec_throw (e : E) (s : S) : (throw e : Call E S A).exec s = (.error e, s) := rfl

@[simp] theorem exec_act (f : S → Except E A × S) (s : S) : (act f).exec s = f s := rfl

@[simp] theorem exec_atomic (p : Call E S A) (s : S) : p.atomic.exec s = p.exec s := rfl

theorem exec_bind (p : Call E S A) (k : A → Call E S B) (s : S) :
    (p >>= k).exec s = match p.exec s with
      | (.ok a, s') => (k a).exec s'
      | (.error e, s') => (.error e, s') := by
  show (p.run >>= ExceptT.bindCont k).run s = _
  rw [Prog.run_bind]
  unfold exec
  rcases p.run.run s with ⟨r, s'⟩
  cases r <;> rfl

theorem exec_attempt (p : Call E S A) (s : S) : p.attempt.exec s = (.ok (p.exec s).1, (p.exec s).2) := by
  show Prog.run (p.run >>= fun r => (pure (Except.ok r) : Prog S (Except E (Except E A)))) s = _
  rw [Prog.run_bind]
  rfl

theorem exec_bind_ok {p : Call E S A} {k : A → Call E S B} {s s' : S} {b : B} (h : (p >>= k).exec s = (.ok b, s')) :
    ∃ a s₁, p.exec s = (.ok a, s₁) ∧ (k a).exec s₁ = (.ok b, s') := by
  rw [exec_bind] at h
  rcases hp : p.exec s with ⟨r, s₁⟩
  rw [hp] at h
  cases r with
  | ok a => exact ⟨a, s₁, rfl, h⟩
  | error e => cases h

section
variable (T : S → S → Prop)

/-- Running alone from `s`, the program takes only steps of `T`, and what it
answers satisfies `Q`. -/
def Solo (Q : A → S → Prop) (p : Call E S A) (s : S) : Prop :=
  Relation.ReflTransGen T s (p.exec s).2 ∧ ∀ a, (p.exec s).1 = .ok a → Q a (p.exec s).2

variable {T} {Q : A → S → Prop} {Q' : B → S → Prop} {s : S}

theorem Ensures.solo {p : Call E S A} (h : Ensures T Q p s) : Solo T Q p s := by
  obtain ⟨-, hr, hq⟩ := Prog.Safe.run steps_refl steps_trans trivial h
  exact ⟨hr, hq⟩

theorem Solo.bind {p : Call E S A} {k : A → Call E S B} (h : Solo T Q p s)
    (hk : ∀ a s', Relation.ReflTransGen T s s' → Q a s' → Solo T Q' (k a) s') : Solo T Q' (p >>= k) s := by
  obtain ⟨hr, hq⟩ := h
  unfold Solo
  rw [exec_bind]
  rcases he : p.exec s with ⟨r, s'⟩
  rw [he] at hr hq
  cases r with
  | ok a =>
    obtain ⟨hr', hq'⟩ := hk a s' hr (hq a rfl)
    exact ⟨hr.trans hr', hq'⟩
  | error e => exact ⟨hr, fun a ha => by cases ha⟩

theorem Solo.read {f : S → A} {k : A → Call E S B} (h : Solo T Q' (k (f s)) s) : Solo T Q'
    (Call.read f >>= k) s := by
  unfold Solo
  rw [exec_bind]
  exact h

theorem Ensures.of_solo {p : Call E S A} (h : ∀ s', Relation.ReflTransGen T s s' → Solo T (fun _ _ => True) p s') :
    Keeps T p.atomic s :=
  Ensures.act fun s' hr => ⟨(h s' hr).1, fun _ _ _ _ => trivial⟩

end

end Call
