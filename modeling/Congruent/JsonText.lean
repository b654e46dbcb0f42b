import Mathlib.Data.List.Basic

/-!
# The grammar of JSON texts

Texts are bytes. A derivation bounds how deep a value nests, and says of an object what
its members are named; names are the bytes between the quotes.
-/

namespace JsonText

abbrev Bytes := List UInt8

def quote : UInt8 := 0x22
def backslash : UInt8 := 0x5C
def comma : UInt8 := 0x2C
def colon : UInt8 := 0x3A
def openBrace : UInt8 := 0x7B
def closeBrace : UInt8 := 0x7D
def openBracket : UInt8 := 0x5B
def closeBracket : UInt8 := 0x5D

/-- Space, tab, line feed and carriage return. -/
def IsWs (b : UInt8) : Prop := b ∈ ([0x20, 0x09, 0x0A, 0x0D] : Bytes)

def Ws (text : Bytes) : Prop := ∀ b ∈ text, IsWs b

def IsDigit (b : UInt8) : Prop := 0x30 ≤ b ∧ b ≤ 0x39

def IsHex (b : UInt8) : Prop := IsDigit b ∨ 0x41 ≤ b ∧ b ≤ 0x46 ∨ 0x61 ≤ b ∧ b ≤ 0x66

/-- What may follow a backslash by itself: `"`, `\`, `/`, `b`, `f`, `n`, `r`, `t`. -/
def IsEscape (b : UInt8) : Prop := b ∈ ([0x22, 0x5C, 0x2F, 0x62, 0x66, 0x6E, 0x72, 0x74] : Bytes)

/-- The bytes between the quotes of a string. -/
inductive Chars : Bytes → Prop
  | nil : Chars []
  | plain {b : UInt8} {text : Bytes} : b ≠ quote → b ≠ backslash → 0x20 ≤ b → Chars text → Chars (b :: text)
  | escape {b : UInt8} {text : Bytes} : IsEscape b → Chars text → Chars (backslash :: b :: text)
  | unicode {a b c d : UInt8} {text : Bytes} : IsHex a → IsHex b → IsHex c → IsHex d → Chars text →
      Chars (backslash :: 0x75 :: a :: b :: c :: d :: text)

theorem Chars.of_plain : ∀ {text : Bytes}, (∀ b ∈ text, b ≠ quote ∧ b ≠ backslash ∧ 0x20 ≤ b) → Chars text
  | [], _ => .nil
  | b :: text, h => by
    obtain ⟨hquote, hbackslash, hcontrol⟩ := h b List.mem_cons_self
    exact .plain hquote hbackslash hcontrol (.of_plain fun c hc => h c (List.mem_cons_of_mem b hc))

def Digits (text : Bytes) : Prop := text ≠ [] ∧ ∀ b ∈ text, IsDigit b

/-- No leading zero. -/
def Int (text : Bytes) : Prop := Digits text ∧ (text.head? = some 0x30 → text = [0x30])

def Fraction (text : Bytes) : Prop := text = [] ∨ ∃ digits, text = 0x2E :: digits ∧ Digits digits

def Exponent (text : Bytes) : Prop :=
  text = [] ∨ ∃ e sign digits, text = e :: (sign ++ digits) ∧ (e = 0x65 ∨ e = 0x45) ∧
    (sign = [] ∨ sign = [0x2B] ∨ sign = [0x2D]) ∧ Digits digits

def Number (text : Bytes) : Prop :=
  ∃ sign int fraction exponent, text = sign ++ int ++ fraction ++ exponent ∧ (sign = [] ∨ sign = [0x2D]) ∧
    Int int ∧ Fraction fraction ∧ Exponent exponent

/-- `true`, `false` and `null`. -/
def IsLiteral (text : Bytes) : Prop :=
  text = [0x74, 0x72, 0x75, 0x65] ∨ text = [0x66, 0x61, 0x6C, 0x73, 0x65] ∨ text = [0x6E, 0x75, 0x6C, 0x6C]

/-- What a value is: an object with members of these names, or something else. -/
inductive Shape where
  | object (names : List Bytes)
  | other

mutual

/-- A value that nests at most so deep. -/
inductive Value : Nat → Bytes → Shape → Prop
  | string {n : Nat} {text : Bytes} : Chars text → Value n (quote :: (text ++ [quote])) .other
  | number {n : Nat} {text : Bytes} : Number text → Value n text .other
  | literal {n : Nat} {text : Bytes} : IsLiteral text → Value n text .other
  | emptyArray {n : Nat} {text : Bytes} : Ws text → Value (n + 1) (openBracket :: (text ++ [closeBracket])) .other
  | array {n : Nat} {text : Bytes} : Elements n text → Value (n + 1)
      (openBracket :: (text ++ [closeBracket])) .other
  | emptyObject {n : Nat} {text : Bytes} : Ws text →
      Value (n + 1) (openBrace :: (text ++ [closeBrace])) (.object [])
  | object {n : Nat} {text : Bytes} {members : List (Bytes × Shape)} : Members n text members →
      Value (n + 1) (openBrace :: (text ++ [closeBrace])) (.object (members.map Prod.fst))

/-- The elements of an array, with commas between them. -/
inductive Elements : Nat → Bytes → Prop
  | one {n : Nat} {before text after : Bytes} {shape : Shape} : Ws before → Value n text shape → Ws after →
      Elements n (before ++ (text ++ after))
  | cons {n : Nat} {before text after rest : Bytes} {shape : Shape} : Ws before → Value n text shape → Ws after →
      Elements n rest → Elements n (before ++ (text ++ (after ++ comma :: rest)))

inductive Members : Nat → Bytes → List (Bytes × Shape) → Prop
  | one {n : Nat} {before name between before' text after : Bytes} {shape : Shape} : Ws before → Chars name →
      Ws between → Ws before' → Value n text shape → Ws after →
      Members n (before ++ quote :: (name ++ quote :: (between ++ colon :: (before' ++ (text ++ after)))))
        [(name, shape)]
  | cons {n : Nat} {before name between before' text after rest : Bytes} {shape : Shape}
      {members : List (Bytes × Shape)} : Ws before → Chars name → Ws between → Ws before' → Value n text shape →
      Ws after → Members n rest members →
      Members n (before ++ quote ::
        (name ++ quote :: (between ++ colon :: (before' ++ (text ++ (after ++ comma :: rest))))))
        ((name, shape) :: members)

end

/-- The text of an object with white space around it; its members' values nest at most so
deep. -/
inductive ObjectText (n : Nat) : Bytes → List (Bytes × Shape) → Prop
  | empty {before inside after : Bytes} : Ws before → Ws inside → Ws after →
      ObjectText n (before ++ openBrace :: (inside ++ closeBrace :: after)) []
  | members {before text after : Bytes} {members : List (Bytes × Shape)} : Ws before → Members n text members →
      Ws after → ObjectText n (before ++ openBrace :: (text ++ closeBrace :: after)) members

end JsonText
