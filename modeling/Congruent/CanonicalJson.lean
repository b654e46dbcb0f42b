import Congruent.Json
import Mathlib.Algebra.Order.Ring.Nat

/-!
# Canonical JSON (`slipstream/src/lib.rs`)

Values are parsed by the codec and then checked: every number in them has to be an integer
that a double holds exactly. Numbers are what the codec keeps of them.
-/

namespace Congruent.CanonicalJson

/-- A JSON value with numbers of the codec. -/
inductive Json (N : Type) where
  | null
  | bool (b : Bool)
  | number (n : N)
  | string (s : String)
  | array (items : List (Json N))
  | object (fields : List (String × Json N))

/-- The largest integer canonical JSON allows. -/
def maxSafeInteger : Int := 9007199254740991

section
variable {N : Type} (asI64 : N → Option Int) (parse : String → Except String (Json N))

def numberError : DeError := .custom "number is not a canonical JSON integer within +/-(2^53 - 1)"

mutual

def validateCanonical : Json N → Except DeError Unit
  | .number n =>
    match asI64 n with
    | some integer => if -maxSafeInteger ≤ integer ∧ integer ≤ maxSafeInteger then .ok () else .error numberError
    | none => .error numberError
  | .array items => validateItems items
  | .object fields => validateValues fields
  | .null | .bool _ | .string _ => .ok ()

/-- `try_for_each` over the items. -/
def validateItems : List (Json N) → Except DeError Unit
  | [] => .ok ()
  | v :: items =>
    match validateCanonical v with
    | .ok () => validateItems items
    | .error e => .error e

/-- `try_for_each` over the values. -/
def validateValues : List (String × Json N) → Except DeError Unit
  | [] => .ok ()
  | (_, v) :: fields =>
    match validateCanonical v with
    | .ok () => validateValues fields
    | .error e => .error e

end

def fromJsonStr (input : String) : Except DeError (Json N) :=
  match parse input with
  | .error e => .error (.custom e)
  | .ok value =>
    match validateCanonical asI64 value with
    | .ok () => .ok value
    | .error e => .error e

end

/-! ## Numbers in a value -/

/-- The number stands somewhere in the value. -/
inductive Occurs {N : Type} (n : N) : Json N → Prop where
  | here : Occurs n (.number n)
  | item {v : Json N} {items : List (Json N)} (hv : v ∈ items) (h : Occurs n v) : Occurs n (.array items)
  | field {p : String × Json N} {fields : List (String × Json N)} (hp : p ∈ fields) (h : Occurs n p.2) :
    Occurs n (.object fields)

section
variable {N : Type} {n : N} {items : List (Json N)} {fields : List (String × Json N)}

theorem occurs_number {m : N} : Occurs n (.number m) ↔ n = m := by
  constructor
  · intro h
    cases h
    rfl
  · rintro rfl
    exact .here

theorem occurs_array : Occurs n (.array items) ↔ ∃ v ∈ items, Occurs n v := by
  constructor
  · intro h
    cases h with
    | item hv h => exact ⟨_, hv, h⟩
  · rintro ⟨v, hv, h⟩
    exact .item hv h

theorem occurs_object : Occurs n (.object fields) ↔ ∃ p ∈ fields, Occurs n p.2 := by
  constructor
  · intro h
    cases h with
    | field hp h => exact ⟨_, hp, h⟩
  · rintro ⟨p, hp, h⟩
    exact .field hp h

end

/-! ## Validation -/

section
variable {N : Type} {asI64 : N → Option Int}

/-- The number passes the check. -/
def Passes (asI64 : N → Option Int) (n : N) : Prop :=
  ∃ i, asI64 n = some i ∧ -maxSafeInteger ≤ i ∧ i ≤ maxSafeInteger

theorem validateCanonical_number (n : N) : validateCanonical asI64 (.number n) = .ok () ↔ Passes asI64 n := by
  unfold validateCanonical Passes
  cases asI64 n with
  | none => simp
  | some i =>
    simp only [Option.some.injEq, exists_eq_left']
    split
    · rename_i h
      exact iff_of_true rfl h
    · rename_i h
      exact iff_of_false nofun h

mutual

theorem validateCanonical_iff : ∀ v : Json N,
    validateCanonical asI64 v = .ok () ↔ ∀ n, Occurs n v → Passes asI64 n
  | .null | .bool _ | .string _ => by
    unfold validateCanonical
    refine iff_of_true rfl fun n h => ?_
    cases h
  | .number n => by
    rw [validateCanonical_number]
    simp only [occurs_number, forall_eq]
  | .array items => by
    unfold validateCanonical
    rw [validateItems_iff items]
    simp only [occurs_array]
    exact ⟨fun h n ⟨v, hv, hn⟩ => h v hv n hn, fun h v hv n hn => h n ⟨v, hv, hn⟩⟩
  | .object fields => by
    unfold validateCanonical
    rw [validateValues_iff fields]
    simp only [occurs_object]
    exact ⟨fun h n ⟨p, hp, hn⟩ => h p hp n hn, fun h p hp n hn => h n ⟨p, hp, hn⟩⟩

theorem validateItems_iff : ∀ items : List (Json N),
    validateItems asI64 items = .ok () ↔ ∀ v ∈ items, ∀ n, Occurs n v → Passes asI64 n
  | [] => by
    unfold validateItems
    simp
  | v :: items => by
    unfold validateItems
    have hv := validateCanonical_iff v
    rw [List.forall_mem_cons, ← hv, ← validateItems_iff items]
    cases validateCanonical asI64 v with
    | ok u => simp
    | error e => simp

theorem validateValues_iff : ∀ fields : List (String × Json N),
    validateValues asI64 fields = .ok () ↔ ∀ p ∈ fields, ∀ n, Occurs n p.2 → Passes asI64 n
  | [] => by
    unfold validateValues
    simp
  | (_, v) :: fields => by
    unfold validateValues
    have hv := validateCanonical_iff v
    rw [List.forall_mem_cons, ← hv, ← validateValues_iff fields]
    cases validateCanonical asI64 v with
    | ok u => simp
    | error e => simp

end

/-- A text that the codec parses is accepted, as the value parsed, if and only if every number
in the value is an integer within ±(2^53 - 1). -/
theorem canonical_json_accepts {integer : N → Option Int}
    (hasI64 : ∀ n i, asI64 n = some i ↔ integer n = some i ∧ intMin ≤ i ∧ i ≤ intMax)
    {parse : String → Except String (Json N)} {input : String} {value : Json N} (hparse : parse input = .ok value) :
    ((∃ v, fromJsonStr asI64 parse input = .ok v) ↔
        ∀ n, Occurs n value → ∃ i, integer n = some i ∧ -(2 ^ 53 - 1) ≤ i ∧ i ≤ 2 ^ 53 - 1) ∧
      ∀ v, fromJsonStr asI64 parse input = .ok v → v = value := by
  have hpasses : ∀ n, Passes asI64 n ↔ ∃ i, integer n = some i ∧ -(2 ^ 53 - 1) ≤ i ∧ i ≤ 2 ^ 53 - 1 := by
    intro n
    unfold Passes
    refine exists_congr fun i => ?_
    rw [hasI64, and_assoc]
    refine and_congr_right fun _ => ?_
    -- the safe integers are words
    unfold maxSafeInteger intMin intMax
    omega
  have hvalid : validateCanonical asI64 value = .ok () ↔ _ := validateCanonical_iff value
  simp only [hpasses] at hvalid
  unfold fromJsonStr
  rw [hparse, ← hvalid]
  simp only
  cases validateCanonical asI64 value with
  | ok u => exact ⟨iff_of_true ⟨value, rfl⟩ rfl, fun v hv => (Except.ok.inj hv).symm⟩
  | error e => exact ⟨iff_of_false (fun ⟨v, hv⟩ => by cases hv) nofun, nofun⟩

end

/-! ## A codec -/

/-- What a codec keeps of a number: an unsigned or a signed word, or a float. -/
inductive Number where
  | posInt (n : UInt64)
  | negInt (n : Int64)
  | float (text : String)
  deriving DecidableEq

namespace Number

def integer : Number → Option Int
  | posInt n => some n.toNat
  | negInt n => some n.toInt
  | float _ => none

def asI64 : Number → Option Int
  | posInt n => if n.toNat < 2 ^ 63 then some n.toNat else none
  | negInt n => some n.toInt
  | float _ => none

theorem asI64_iff (n : Number) (i : Int) :
    n.asI64 = some i ↔ n.integer = some i ∧ intMin ≤ i ∧ i ≤ intMax := by
  unfold asI64 integer intMin intMax
  cases n with
  | posInt n =>
    simp only [Option.ite_none_right_eq_some, Option.some.injEq]
    omega
  | negInt n =>
    have hlow := n.le_toInt
    have hhigh := n.toInt_lt
    simp only [Option.some.injEq]
    omega
  | float text => simp

end Number

def deepValue : Json Number := .array [.null, .array [.number (.posInt 18446744073709551615)]]

/-- An unsigned word too large, two levels down, is rejected. -/
theorem canonical_json_accepts_deep : ¬∃ v, fromJsonStr Number.asI64
    (fun input => if input = "[null, [18446744073709551615]]" then .ok deepValue else .error "")
    "[null, [18446744073709551615]]" = .ok v := by
  rw [(canonical_json_accepts Number.asI64_iff (if_pos rfl)).1]
  intro h
  obtain ⟨i, hi, -, hle⟩ := h (.posInt 18446744073709551615)
    (.item (List.mem_cons_of_mem _ List.mem_cons_self) (.item List.mem_cons_self .here))
  rw [← Option.some.inj hi] at hle
  exact absurd hle (by decide)

end Congruent.CanonicalJson
