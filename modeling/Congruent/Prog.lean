import Mathlib.Data.List.Forall2

/-!
# Programs over a shared state

Programs made of atomic operations on a shared state, run alone or interleaved
with others, and a rely rule: what every operation of every program keeps holds
throughout, whatever the schedule.
-/

/-- A program returns, or performs one atomic operation and goes on with its
answer. -/
inductive Prog (S : Type) (A : Type) : Type 1 where
  | ret (a : A)
  | op {B : Type} (f : S → B × S) (k : B → Prog S A)

namespace Prog

variable {S A B C : Type}

protected def bind : Prog S A → (A → Prog S B) → Prog S B
  | .ret a, k => k a
  | .op f k', k => .op f fun b => (k' b).bind k

instance : Monad (Prog S) where
  pure := .ret
  bind := Prog.bind

@[simp] theorem ret_bind (a : A) (k : A → Prog S B) : (Prog.ret a >>= k) = k a := rfl

@[simp] theorem pure_bind' (a : A) (k : A → Prog S B) : ((pure a : Prog S A) >>= k) = k a := rfl

@[simp] theorem op_bind {X : Type} (f : S → X × S) (k' : X → Prog S A) (k : A → Prog S B) :
    (Prog.op f k' >>= k) = .op f fun x => k' x >>= k := rfl

protected theorem bind_assoc : ∀ (p : Prog S A) (k : A → Prog S B) (l : B → Prog S C),
    ((p >>= k) >>= l) = p >>= fun a => k a >>= l
  | .ret _, _, _ => rfl
  | .op f k', k, l => congrArg (Prog.op f) (funext fun x => Prog.bind_assoc (k' x) k l)

protected theorem bind_pure : ∀ p : Prog S A, (p >>= pure) = p
  | .ret _ => rfl
  | .op f k => congrArg (Prog.op f) (funext fun x => Prog.bind_pure (k x))

instance : LawfulMonad (Prog S) := .mk' _ Prog.bind_pure (fun _ _ => rfl) Prog.bind_assoc

/-- One operation. -/
def act (f : S → A × S) : Prog S A := .op f .ret

/-- Reads the state. -/
def read (f : S → A) : Prog S A := act fun s => (f s, s)

/-- Changes the state. -/
def modify (f : S → S) : Prog S Unit := act fun s => ((), f s)

/-! ## Running alone -/

def run : Prog S A → S → A × S
  | .ret a, s => (a, s)
  | .op f k, s => (k (f s).1).run (f s).2

@[simp] theorem run_ret (a : A) (s : S) : (Prog.ret a).run s = (a, s) := rfl

@[simp] theorem run_pure (a : A) (s : S) : (pure a : Prog S A).run s = (a, s) := rfl

@[simp] theorem run_op {X : Type} (f : S → X × S) (k : X → Prog S A) (s : S) :
    (Prog.op f k).run s = (k (f s).1).run (f s).2 := rfl

@[simp] theorem run_bind : ∀ (p : Prog S A) (k : A → Prog S B) (s : S),
    (p >>= k).run s = (k (p.run s).1).run (p.run s).2
  | .ret _, _, _ => rfl
  | .op f k', k, s => run_bind (k' (f s).1) k (f s).2

@[simp] theorem run_act (f : S → A × S) (s : S) : (act f).run s = f s := rfl

@[simp] theorem run_read (f : S → A) (s : S) : (read f).run s = (f s, s) := rfl

theorem run_read_bind (f : S → A) (k : A → Prog S B) (s : S) : (read f >>= k).run s = (k (f s)).run s := rfl

@[simp] theorem run_modify (f : S → S) (s : S) : (modify f).run s = ((), f s) := rfl

/-! ## Interleaving -/

/-- The `i`-th program of the pool performs one operation. -/
def stepAt (i : Nat) (ps : List (Prog S A)) (s : S) : List (Prog S A) × S :=
  match ps[i]? with
  | some (.op f k) => (ps.set i (k (f s).1), (f s).2)
  | _ => (ps, s)

theorem stepAt_cases (i : Nat) (ps : List (Prog S A)) (s : S) : stepAt i ps s = (ps, s) ∨
    ∃ (X : Type) (f : S → X × S) (k : X → Prog S A),
      ps[i]? = some (.op f k) ∧ stepAt i ps s = (ps.set i (k (f s).1), (f s).2) := by
  unfold stepAt
  rcases hp : ps[i]? with _ | ⟨a⟩ | ⟨f, k⟩
  · exact .inl rfl
  · exact .inl rfl
  · exact .inr ⟨_, f, k, rfl, rfl⟩

/-- Runs a pool along a schedule of program indices. -/
def schedule : List Nat → List (Prog S A) → S → List (Prog S A) × S
  | [], ps, s => (ps, s)
  | i :: is, ps, s => schedule is (stepAt i ps s).1 (stepAt i ps s).2

/-- Whether a program has returned. -/
def done : Prog S A → Bool
  | .ret _ => true
  | .op _ _ => false

/-- Runs the programs of a pool to their ends, one after the other. -/
def finish : List (Prog S A) → S → List A × S
  | [], s => ([], s)
  | p :: ps, s =>
    let r := p.run s
    let r' := finish ps r.2
    (r.1 :: r'.1, r'.2)

/-- Runs a pool along a schedule, and then what is left of it in order. -/
def runAll (is : List Nat) (ps : List (Prog S A)) (s : S) : List A × S :=
  finish (schedule is ps s).1 (schedule is ps s).2

theorem schedule_append (js : List Nat) : ∀ (is : List Nat) (ps : List (Prog S A)) (s : S),
    schedule (is ++ js) ps s = schedule js (schedule is ps s).1 (schedule is ps s).2
  | [], _, _ => rfl
  | i :: is, ps, s => schedule_append js is (stepAt i ps s).1 (stepAt i ps s).2

/-- What may be left of a program after its first `n` operations, whatever others do meanwhile. -/
def Remainder : Nat → Prog S A → Prog S A → Prop
  | 0, p, q => q = p
  | _ + 1, .ret a, q => q = .ret a
  | n + 1, .op f k, q => ∃ s, Remainder n (k (f s).1) q

theorem remainder_ret {n : Nat} {a : A} {q : Prog S A} (h : Remainder n (.ret a) q) : q = .ret a := by
  cases n <;> exact h

theorem schedule_remainder : ∀ (is : List Nat) {ps : List (Prog S A)} {s : S} {j : Nat} {p : Prog S A},
    ps[j]? = some p → ∃ q, (schedule is ps s).1[j]? = some q ∧ Remainder (is.count j) p q
  | [], _, _, _, p, hp => ⟨p, hp, rfl⟩
  | i :: is, ps, s, j, p, hp => by
    by_cases hij : i = j
    · subst hij
      rw [List.count_cons_self, schedule]
      unfold stepAt
      rw [hp]
      cases p with
      | ret a =>
        obtain ⟨q, hq, ha⟩ := schedule_remainder is hp
        exact ⟨q, hq, remainder_ret ha⟩
      | op f k =>
        have hi : (ps.set i (k (f s).1))[i]? = some (k (f s).1) := by
          rw [List.getElem?_set_self (List.getElem?_eq_some_iff.mp hp).1]
        obtain ⟨q, hq, ha⟩ := schedule_remainder is hi
        exact ⟨q, hq, s, ha⟩
    · rw [List.count_cons_of_ne hij]
      refine schedule_remainder is ?_
      unfold stepAt
      split
      · rw [List.getElem?_set_ne hij, hp]
      · exact hp

theorem schedule_tail (p : Prog S A) : ∀ (is : List Nat) (ps : List (Prog S A)) (s : S),
    schedule (is.map (· + 1)) (p :: ps) s = (p :: (schedule is ps s).1, (schedule is ps s).2)
  | [], _, _ => rfl
  | i :: is, ps, s => by
    have hstep : stepAt (i + 1) (p :: ps) s = (p :: (stepAt i ps s).1, (stepAt i ps s).2) := by
      unfold stepAt
      rw [List.getElem?_cons_succ]
      rcases ps[i]? with _ | ⟨a⟩ | ⟨f, k⟩ <;> rfl
    rw [List.map_cons, schedule, hstep, schedule_tail p is]
    rfl

theorem schedule_head (ps : List (Prog S A)) : ∀ (p : Prog S A) (s : S),
    ∃ is, schedule is (p :: ps) s = (.ret (p.run s).1 :: ps, (p.run s).2)
  | .ret _, _ => ⟨[], rfl⟩
  | .op f k, s => by
    obtain ⟨is, h⟩ := schedule_head ps (k (f s).1) (f s).2
    exact ⟨0 :: is, h⟩

theorem finish_schedule : ∀ (ps : List (Prog S A)) (s : S),
    ∃ is, schedule is ps s = ((finish ps s).1.map .ret, (finish ps s).2)
  | [], _ => ⟨[], rfl⟩
  | p :: ps, s => by
    obtain ⟨is, hhead⟩ := schedule_head ps p s
    obtain ⟨js, htail⟩ := finish_schedule ps (p.run s).2
    refine ⟨is ++ js.map (· + 1), ?_⟩
    rw [schedule_append, hhead, schedule_tail, htail]
    rfl

theorem runAll_schedule (is : List Nat) (ps : List (Prog S A)) (s : S) :
    ∃ js, schedule js ps s = ((runAll is ps s).1.map .ret, (runAll is ps s).2) := by
  obtain ⟨js, h⟩ := finish_schedule (schedule is ps s).1 (schedule is ps s).2
  exact ⟨is ++ js, (schedule_append js is ps s).trans h⟩

/-! ## The rely rule -/

section
variable (I : S → Prop) (R G : S → S → Prop)

/-- From `s` on, whatever other programs do along `R`, every operation keeps the
invariant and moves along `G`, and the answer satisfies `Q`. -/
def Guarded (Q : A → S → Prop) : Prog S A → S → Prop
  | .ret a, s => ∀ s', R s s' → I s' → Q a s'
  | .op f k, s => ∀ s', R s s' → I s' → I (f s').2 ∧ G s' (f s').2 ∧ Guarded Q (k (f s').1) (f s').2

/-- A program that keeps to what it relies on. -/
abbrev Safe (Q : A → S → Prop) : Prog S A → S → Prop := Guarded I R R Q

end

section
variable {I : S → Prop} {R G : S → S → Prop} (hrefl : ∀ s, R s s) (htrans : ∀ a b c, R a b → R b c → R a c)

include htrans in
theorem Guarded.rely {Q : A → S → Prop} {p : Prog S A} {s s' : S} (h : Guarded I R G Q p s) (hr : R s s') :
    Guarded I R G Q p s' := by
  cases p with
  | ret a => exact fun s'' hr' hi => h s'' (htrans _ _ _ hr hr') hi
  | op f k => exact fun s'' hr' hi => h s'' (htrans _ _ _ hr hr') hi

include hrefl in
theorem Guarded.of_forall {Q : A → S → Prop} {p : Prog S A} {s : S}
    (h : ∀ s', R s s' → I s' → Guarded I R G Q p s') : Guarded I R G Q p s := by
  cases p with
  | ret a => exact fun s' hr hi => h s' hr hi s' (hrefl s') hi
  | op f k => exact fun s' hr hi => h s' hr hi s' (hrefl s') hi

include hrefl htrans in
theorem Safe.bind {Q : A → S → Prop} {Q' : B → S → Prop} {k : A → Prog S B} :
    ∀ {p : Prog S A} {s : S}, Safe I R Q p s →
      (∀ a s', R s s' → I s' → Q a s' → Safe I R Q' (k a) s') → Safe I R Q' (p >>= k) s
  | .ret a, s, h, hk => Guarded.of_forall hrefl fun s' hr hi => hk a s' hr hi (h s' hr hi)
  | .op f k', s, h, hk => fun s' hr hi => by
    obtain ⟨hi', hr', hs⟩ := h s' hr hi
    refine ⟨hi', hr', Safe.bind hs fun a s'' hr'' => hk a s'' (htrans _ _ _ (htrans _ _ _ hr hr') hr'')⟩

theorem Guarded.read {X : Type} {Q : A → S → Prop} {f : S → X} {k : X → Prog S A} {s : S} (hG : ∀ s, G s s)
    (h : ∀ s', R s s' → I s' → Guarded I R G Q (k (f s')) s') : Guarded I R G Q (Prog.read f >>= k) s :=
  fun s' hr hi => ⟨hi, hG s', h s' hr hi⟩

theorem Guarded.act {X : Type} {Q : A → S → Prop} {f : S → X × S} {k : X → Prog S A} {s : S}
    (h : ∀ s', R s s' → I s' → I (f s').2 ∧ G s' (f s').2 ∧ Guarded I R G Q (k (f s').1) (f s').2) :
    Guarded I R G Q (Prog.act f >>= k) s :=
  h

theorem Guarded.mono {Q Q' : A → S → Prop} (hQ : ∀ a s, I s → Q a s → Q' a s) :
    ∀ {p : Prog S A} {s : S}, Guarded I R G Q p s → Guarded I R G Q' p s
  | .ret _, _, h => fun s' hr hi => hQ _ _ hi (h s' hr hi)
  | .op _ _, _, h => fun s' hr hi => ⟨(h s' hr hi).1, (h s' hr hi).2.1, Guarded.mono hQ (h s' hr hi).2.2⟩

include hrefl htrans in
theorem Safe.run {Q : A → S → Prop} : ∀ {p : Prog S A} {s : S}, I s → Safe I R Q p s →
    I (p.run s).2 ∧ R s (p.run s).2 ∧ Q (p.run s).1 (p.run s).2
  | .ret _, s, hi, h => ⟨hi, hrefl s, h s (hrefl s) hi⟩
  | .op _ _, s, hi, h => by
    obtain ⟨hi', hr', hs⟩ := h s (hrefl s) hi
    obtain ⟨h1, h2, h3⟩ := Safe.run hi' hs
    exact ⟨h1, htrans _ _ _ hr' h2, h3⟩

end

/-! ## Pools -/

section
variable {E : Type} {I : S → Prop} {R G : E → S → S → Prop} {Q : E → A → S → Prop} {T : S → S → Prop}

/-- Every program of a pool is guarded, each with a rely, a guarantee and a
postcondition of its own. -/
def PoolGuarded (I : S → Prop) (R G : E → S → S → Prop) (Q : E → A → S → Prop) (es : List E)
    (ps : List (Prog S A)) (s : S) : Prop :=
  List.Forall₂ (fun e p => Guarded I (R e) (G e) (Q e) p s) es ps

/-- What a program of the pool does, the others may rely on. -/
def Compatible (R G : E → S → S → Prop) (es : List E) : Prop :=
  es.Pairwise fun e e' => ∀ s s', (G e s s' → R e' s s') ∧ (G e' s s' → R e s s')

variable (hrefl : ∀ e s, R e s s) (htrans : ∀ e a b c, R e a b → R e b c → R e a c)
  (hTrefl : ∀ s, T s s) (hTtrans : ∀ a b c, T a b → T b c → T a c)

include hrefl htrans hTrefl in
theorem stepAt_guarded : ∀ {es : List E} {ps : List (Prog S A)} {s : S} (i : Nat), Compatible R G es →
    (∀ e ∈ es, ∀ s s', G e s s' → T s s') → I s → PoolGuarded I R G Q es ps s →
    I (stepAt i ps s).2 ∧ T s (stepAt i ps s).2 ∧ PoolGuarded I R G Q es (stepAt i ps s).1 (stepAt i ps s).2 := by
  intro es ps s i hcomp hT hi hps
  unfold stepAt
  cases hp : ps[i]? with
  | none => exact ⟨hi, hTrefl s, hps⟩
  | some p =>
    cases p with
    | ret a => exact ⟨hi, hTrefl s, hps⟩
    | op f k =>
      simp only
      obtain ⟨hlt, hpi⟩ := List.getElem?_eq_some_iff.mp hp
      have hlen := hps.length_eq
      have hsafe := (List.forall₂_iff_get.mp hps).2 i (by omega) hlt
      rw [List.get_eq_getElem, List.get_eq_getElem, hpi] at hsafe
      obtain ⟨hi', hg, hk⟩ := hsafe s (hrefl _ s) hi
      refine ⟨hi', hT _ (List.getElem_mem _) _ _ hg, ?_⟩
      refine List.forall₂_iff_get.mpr ⟨by simpa using hlen, fun j hj hj' => ?_⟩
      simp only [List.get_eq_getElem, List.getElem_set]
      have hpair := List.pairwise_iff_getElem.mp hcomp
      rcases Nat.lt_trichotomy i j with hij | hij | hij
      · rw [if_neg (by omega)]
        exact ((List.forall₂_iff_get.mp hps).2 j hj (by simpa using hj')).rely (htrans _)
          ((hpair i j (by omega) hj hij _ _).1 hg)
      · subst hij
        rw [if_pos rfl]
        exact hk
      · rw [if_neg (by omega)]
        exact ((List.forall₂_iff_get.mp hps).2 j hj (by simpa using hj')).rely (htrans _)
          ((hpair j i hj (by omega) hij _ _).2 hg)

include hrefl htrans hTrefl hTtrans in
theorem schedule_guarded {es : List E} (hcomp : Compatible R G es) (hT : ∀ e ∈ es, ∀ s s', G e s s' → T s s') :
    ∀ (is : List Nat) {ps : List (Prog S A)} {s : S}, I s → PoolGuarded I R G Q es ps s →
    I (schedule is ps s).2 ∧ T s (schedule is ps s).2 ∧
      PoolGuarded I R G Q es (schedule is ps s).1 (schedule is ps s).2
  | [], _, s, hi, hps => ⟨hi, hTrefl s, hps⟩
  | i :: is, ps, s, hi, hps => by
    obtain ⟨hi', ht, hps'⟩ := stepAt_guarded hrefl htrans hTrefl i hcomp hT hi hps
    obtain ⟨h1, h2, h3⟩ := schedule_guarded hcomp hT is hi' hps'
    exact ⟨h1, hTtrans _ _ _ ht h2, h3⟩

include hrefl htrans in
theorem runAll_guarded {es : List E} (hcomp : Compatible R G es) (is : List Nat) {ps : List (Prog S A)} {s : S}
    (hi : I s) (hps : PoolGuarded I R G Q es ps s) :
    I (runAll is ps s).2 ∧ List.Forall₂ (fun e a => Q e a (runAll is ps s).2) es (runAll is ps s).1 := by
  obtain ⟨js, hjs⟩ := runAll_schedule is ps s
  have htrue : ∀ e ∈ es, ∀ s s', G e s s' → True := fun _ _ _ _ _ => trivial
  obtain ⟨hi', -, hps'⟩ := schedule_guarded hrefl htrans (fun _ => trivial)
    (fun _ _ _ _ _ => trivial) hcomp htrue js
    hi hps
  rw [hjs] at hi' hps'
  exact ⟨hi', (List.forall₂_map_right_iff.mp hps').imp fun e a h => h _ (hrefl e _) hi'⟩

end

section
variable {E : Type} {I : S → Prop} {R : S → S → Prop} {Q : E → A → S → Prop}
  (hrefl : ∀ s, R s s) (htrans : ∀ a b c, R a b → R b c → R a c)

abbrev PoolSafe (I : S → Prop) (R : S → S → Prop) (Q : E → A → S → Prop) (es : List E) (ps : List (Prog S A))
    (s : S) : Prop :=
  PoolGuarded I (fun _ => R) (fun _ => R) Q es ps s

theorem compatible_same (R : S → S → Prop) (es : List E) : Compatible (fun _ => R) (fun _ => R) es :=
  List.pairwise_of_forall fun _ _ _ _ => ⟨id, id⟩

include hrefl htrans in
theorem schedule_safe {es : List E} (is : List Nat) {ps : List (Prog S A)} {s : S} (hi : I s)
    (hps : PoolSafe I R Q es ps s) :
    I (schedule is ps s).2 ∧ R s (schedule is ps s).2 ∧
      PoolSafe I R Q es (schedule is ps s).1 (schedule is ps s).2 :=
  schedule_guarded (fun _ => hrefl) (fun _ => htrans) hrefl htrans (compatible_same R es)
    (fun _ _ _ _ => id) is hi hps

include hrefl htrans in
theorem runAll_safe {es : List E} (is : List Nat) {ps : List (Prog S A)} {s : S} (hi : I s)
    (hps : PoolSafe I R Q es ps s) :
    I (runAll is ps s).2 ∧ List.Forall₂ (fun e a => Q e a (runAll is ps s).2) es (runAll is ps s).1 :=
  runAll_guarded (fun _ => hrefl) (fun _ => htrans) (compatible_same R es) is hi hps

end

end Prog
