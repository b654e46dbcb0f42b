import Mathlib.Data.List.Infix
import Congruent.JsonText
import Congruent.Store

/-!
# The raw scan of a key response (`server_keys/validate.rs`)

The scanner walks over the bytes by index. An index out of bounds is a panic here, and so
is a slice; a loop that does not end is told apart from both.
-/

namespace Congruent.KeyScan

open Store (Bytes utf8 ofUtf8)
open JsonText (quote backslash comma colon openBrace closeBrace openBracket closeBracket Shape Ws
  Chars Number IsLiteral
  Elements Members ObjectText)

/-- `MAX_JSON_SCAN_DEPTH`. -/
def maxJsonScanDepth : Nat := 128

inductive Stop where
  | badServerResponse (message : String)
  | panic
  | diverges
  deriving DecidableEq

abbrev Scan (A : Type) := Except Stop A

structure SectionCounts where
  verifyKeys : Nat
  oldVerifyKeys : Nat
  deriving DecidableEq

def sectionVerifyKeys : Bytes := utf8 "verify_keys"

def sectionOldVerifyKeys : Bytes := utf8 "old_verify_keys"

/-! ## Bytes -/

section
variable (bytes : Bytes)

/-- `bytes[i]`. -/
def index (i : Nat) : Scan UInt8 :=
  match bytes[i]? with
  | some b => .ok b
  | none => .error .panic

/-- `&bytes[i..j]`. -/
def slice (i j : Nat) : Scan Bytes :=
  if i ≤ j ∧ j ≤ bytes.length then .ok ((bytes.drop i).take (j - i)) else .error .panic

/-- Moves on while a byte is there and satisfies a condition. -/
def skipWhile (p : UInt8 → Bool) (i : Nat) : Nat := i + ((bytes.drop i).takeWhile p).length

/-- Space, tab, line feed, form feed and carriage return. -/
def isAsciiWhitespace (b : UInt8) : Bool := b ∈ ([0x20, 0x09, 0x0A, 0x0C, 0x0D] : Bytes)

def skipWs (i : Nat) : Nat := skipWhile bytes isAsciiWhitespace i

def endsScalar (b : UInt8) : Bool := b ∈ ([comma, closeBrace, closeBracket, 0x20, 0x0A, 0x0D, 0x09] : Bytes)

def skipScalar (i : Nat) : Nat := skipWhile bytes (fun b => !endsScalar b) i

def containsEscapes (key : Bytes) : Bool := backslash ∈ key

/-- The loop of `parse_string`. -/
def stringFrom (stringStart : Nat) : Nat → Nat → Scan (Bytes × Nat)
  | 0, _ => .error .diverges
  | fuel + 1, i =>
    if i < bytes.length then do
      let b ← index bytes i
      if b = backslash then stringFrom stringStart fuel (i + 2)
      else if b = quote then do .ok (← slice bytes stringStart i, i + 1)
      else stringFrom stringStart fuel (i + 1)
    else .error (.badServerResponse "Unterminated JSON string")

def parseString (start : Nat) : Scan (Bytes × Nat) :=
  if bytes[start]? ≠ some quote then .ok ([], start)
  else stringFrom bytes (start + 1) (bytes.length + 1) (start + 1)

/-! ## Skipping values -/

section
variable (value : Nat → Scan Nat)

/-- The loop of `skip_object`, with how its members' values are skipped. -/
def objectFrom : Nat → Nat → Scan Nat
  | 0, _ => .error .diverges
  | fuel + 1, i =>
    let i := skipWs bytes i
    if bytes[i]? = some closeBrace then .ok (i + 1)
    else if bytes[i]? = some quote then do
      let (_, next) ← parseString bytes i
      let i := skipWs bytes next
      if bytes[i]? ≠ some colon then .ok i
      else do
        let i ← value (i + 1)
        let i := skipWs bytes i
        if bytes[i]? = some comma then objectFrom fuel (i + 1)
        else if bytes[i]? = some closeBrace then .ok (i + 1)
        else .ok i
    else .ok i

/-- The loop of `skip_array`. -/
def arrayFrom : Nat → Nat → Scan Nat
  | 0, _ => .error .diverges
  | fuel + 1, i =>
    let i := skipWs bytes i
    if bytes[i]? = some closeBracket then .ok (i + 1)
    else if bytes[i]? = none then .ok i
    else do
      let i ← value i
      let i := skipWs bytes i
      if bytes[i]? = some comma then arrayFrom fuel (i + 1)
      else if bytes[i]? = some closeBracket then .ok (i + 1)
      else .ok i

end

/-- `skip_json_value`, with how much of the scan depth is left. -/
def skipJsonValue : Nat → Nat → Scan Nat
  | 0, _ => .error (.badServerResponse "JSON nesting depth exceeds scan limit")
  | room + 1, start =>
    let i := skipWs bytes start
    match bytes[i]? with
    | none => .ok i
    | some b =>
      if b = quote then do
        let (_, next) ← parseString bytes i
        .ok next
      else if b = openBrace then objectFrom bytes (skipJsonValue room) (bytes.length + 1) (i + 1)
      else if b = openBracket then arrayFrom bytes (skipJsonValue room) (bytes.length + 1) (i + 1)
      else if b = 0x2D ∨ 0x30 ≤ b ∧ b ≤ 0x39 then .ok (skipScalar bytes i)
      else if b = 0x74 ∧ (bytes.drop i).take 4 = utf8 "true" then .ok (i + 4)
      else if b = 0x66 ∧ (bytes.drop i).take 5 = utf8 "false" then .ok (i + 5)
      else if b = 0x6E ∧ (bytes.drop i).take 4 = utf8 "null" then .ok (i + 4)
      else .ok i

/-! ## Sections -/

def showBytes (key : Bytes) : String := (ofUtf8 key).getD "<invalid utf-8>"

/-- The loop of `scan_object_for_duplicate_keys`. -/
def sectionFrom (sectionName : Bytes) : Nat → Nat → List Bytes → Scan (Nat × Nat)
  | 0, _, _ => .error .diverges
  | fuel + 1, i, seenKeys =>
    let i := skipWs bytes i
    if bytes[i]? = some closeBrace then .ok (seenKeys.length, i + 1)
    else if bytes[i]? = some quote then do
      let (key, next) ← parseString bytes i
      if containsEscapes key then
        .error (.badServerResponse ("JSON key '" ++ showBytes key ++ "' in " ++
          (ofUtf8 sectionName).getD "<invalid>" ++ " contains illegal escape sequences"))
      else if seenKeys.contains key then
        .error (.badServerResponse ("Duplicate JSON key '" ++ showBytes key ++ "' in " ++
          (ofUtf8 sectionName).getD "<invalid>"))
      else do
        let seenKeys := key :: seenKeys
        let i := skipWs bytes next
        if bytes[i]? ≠ some colon then .ok (seenKeys.length, i)
        else do
          let i ← skipJsonValue bytes maxJsonScanDepth (i + 1)
          let i := skipWs bytes i
          if bytes[i]? = some comma then sectionFrom sectionName fuel (i + 1) seenKeys
          else if bytes[i]? = some closeBrace then .ok (seenKeys.length, i + 1)
          else .ok (seenKeys.length, i)
    else .ok (seenKeys.length, i)

def scanObjectForDuplicateKeys (start : Nat) (sectionName : Bytes) : Scan (Nat × Nat) :=
  sectionFrom bytes sectionName (bytes.length + 1) (start + 1) []

structure RootScan where
  counts : SectionCounts
  seenVerifyKeys : Bool
  seenOldVerifyKeys : Bool

/-- The member of the root at an index: where to go on, or `none` where the scan stops. -/
def rootMember (key : Bytes) (i : Nat) (s : RootScan) : Scan (Option Nat × RootScan) :=
  if key = sectionVerifyKeys then
    if s.seenVerifyKeys then .error (.badServerResponse "Duplicate top-level verify_keys section")
    else
      let s := { s with seenVerifyKeys := true }
      if bytes[i]? ≠ some openBrace then .ok (none, s)
      else do
        let (count, fin) ← scanObjectForDuplicateKeys bytes i key
        .ok (some fin, { s with counts := { s.counts with verifyKeys := count } })
  else if key = sectionOldVerifyKeys then
    if s.seenOldVerifyKeys then .error (.badServerResponse "Duplicate top-level old_verify_keys section")
    else
      let s := { s with seenOldVerifyKeys := true }
      if bytes[i]? ≠ some openBrace then .ok (none, s)
      else do
        let (count, fin) ← scanObjectForDuplicateKeys bytes i key
        .ok (some fin, { s with counts := { s.counts with oldVerifyKeys := count } })
  else do .ok (some (← skipJsonValue bytes maxJsonScanDepth i), s)

/-- The loop of `scan_root_sections`. -/
def rootFrom : Nat → Nat → RootScan → Scan SectionCounts
  | 0, _, _ => .error .diverges
  | fuel + 1, i, s =>
    let i := skipWs bytes i
    if bytes[i]? ≠ some quote then .ok s.counts
    else do
      let (key, next) ← parseString bytes i
      let i := skipWs bytes next
      if bytes[i]? ≠ some colon then .ok s.counts
      else
        let i := skipWs bytes (i + 1)
        if containsEscapes key then
          .error (.badServerResponse ("JSON key '" ++ showBytes key ++ "' contains illegal escape sequences"))
        else do
          match ← rootMember bytes key i s with
          | (none, s) => .ok s.counts
          | (some fin, s) =>
            let i := skipWs bytes fin
            if bytes[i]? = some comma then rootFrom fuel (i + 1) s else .ok s.counts

def scanRootSections : Scan SectionCounts :=
  let i := skipWs bytes 0
  if bytes[i]? ≠ some openBrace then .ok ⟨0, 0⟩
  else rootFrom bytes (bytes.length + 1) (i + 1) ⟨⟨0, 0⟩, false, false⟩

end

/-! ## The scan ends in bounds -/

/-- The scan ended, without a panic, in a result that satisfies a condition or in an error
of its own. -/
def Ends {A : Type} (P : A → Prop) : Scan A → Prop
  | .ok a => P a
  | .error (.badServerResponse _) => True
  | .error .panic | .error .diverges => False

section
variable {A B : Type} {P P' : A → Prop} {Q : B → Prop} {x : Scan A} {bytes : Bytes}

theorem Ends.mono (h : Ends P x) (hP : ∀ a, P a → P' a) : Ends P' x := by
  cases x with
  | ok a => exact hP a h
  | error e =>
    cases e with
    | badServerResponse message => trivial
    | panic => cases h
    | diverges => cases h

theorem Ends.bind (h : Ends P x) {f : A → Scan B} (hf : ∀ a, P a → Ends Q (f a)) : Ends Q (x >>= f) := by
  cases x with
  | ok a => exact hf a h
  | error e =>
    cases e with
    | badServerResponse message => trivial
    | panic => cases h
    | diverges => cases h

theorem le_skipWhile (p : UInt8 → Bool) (i : Nat) : i ≤ skipWhile bytes p i := Nat.le_add_right _ _

theorem le_skipWs (i : Nat) : i ≤ skipWs bytes i := le_skipWhile _ i

theorem lt_length_of_some {i : Nat} {b : UInt8} (h : bytes[i]? = some b) : i < bytes.length :=
  (List.getElem?_eq_some_iff.mp h).1

theorem stringFrom_ends {stringStart : Nat} : ∀ (fuel i : Nat), bytes.length - i < fuel → stringStart ≤ i →
    Ends (fun r => i < r.2) (stringFrom bytes stringStart fuel i)
  | 0, _, h, _ => absurd h (Nat.not_lt_zero _)
  | fuel + 1, i, h, hstart => by
    unfold stringFrom
    by_cases hi : i < bytes.length
    · have hindex : index bytes i = .ok bytes[i] := by simp [index, hi]
      rw [if_pos hi, hindex]
      show Ends _ (if bytes[i] = backslash then _ else _)
      split
      · refine (stringFrom_ends fuel (i + 2) (by omega) (by omega)).mono fun r hr => ?_
        omega
      · split
        · have hslice : slice bytes stringStart i = .ok ((bytes.drop stringStart).take (i - stringStart)) :=
            if_pos ⟨hstart, hi.le⟩
          rw [hslice]
          exact Nat.lt_succ_self i
        · refine (stringFrom_ends fuel (i + 1) (by omega) (by omega)).mono fun r hr => ?_
          omega
    · rw [if_neg hi]
      trivial

theorem parseString_ends (start : Nat) : Ends (fun r => start ≤ r.2) (parseString bytes start) := by
  unfold parseString
  split
  · exact Nat.le_refl start
  · refine (stringFrom_ends (bytes.length + 1) (start + 1) (by omega) (Nat.le_refl _)).mono fun r hr => ?_
    omega

section
variable {value : Nat → Scan Nat} (hvalue : ∀ i, Ends (fun j => i ≤ j) (value i))
include hvalue

theorem objectFrom_ends : ∀ (fuel i : Nat), bytes.length - i < fuel →
    Ends (fun j => i ≤ j) (objectFrom bytes value fuel i)
  | 0, _, h => absurd h (Nat.not_lt_zero _)
  | fuel + 1, i, h => by
    have hws := @le_skipWs bytes i
    unfold objectFrom
    simp only
    split
    · exact hws.trans (Nat.le_succ _)
    split
    · refine (parseString_ends _).bind fun r hr => ?_
      have hws' := @le_skipWs bytes r.2
      split
      · exact hws.trans (hr.trans hws')
      refine (hvalue _).bind fun j hj => ?_
      have hws'' := @le_skipWs bytes j
      split
      · rename_i hcomma
        have hlt := lt_length_of_some hcomma
        refine (objectFrom_ends fuel _ (by omega)).mono fun k hk => ?_
        omega
      · split
        · show i ≤ skipWs bytes j + 1
          omega
        · show i ≤ skipWs bytes j
          omega
    · exact hws

theorem arrayFrom_ends : ∀ (fuel i : Nat), bytes.length - i < fuel →
    Ends (fun j => i ≤ j) (arrayFrom bytes value fuel i)
  | 0, _, h => absurd h (Nat.not_lt_zero _)
  | fuel + 1, i, h => by
    have hws := @le_skipWs bytes i
    unfold arrayFrom
    simp only
    split
    · exact hws.trans (Nat.le_succ _)
    split
    · exact hws
    · refine (hvalue _).bind fun j hj => ?_
      have hws' := @le_skipWs bytes j
      split
      · rename_i hcomma
        have hlt := lt_length_of_some hcomma
        refine (arrayFrom_ends fuel _ (by omega)).mono fun k hk => ?_
        omega
      · split
        · show i ≤ skipWs bytes j + 1
          omega
        · show i ≤ skipWs bytes j
          omega

end

theorem skipJsonValue_ends : ∀ (room start : Nat), Ends (fun j => start ≤ j) (skipJsonValue bytes room start)
  | 0, _ => trivial
  | room + 1, start => by
    have hws := @le_skipWs bytes start
    unfold skipJsonValue
    simp only
    split
    · exact hws
    · rename_i b hb
      have hlt := lt_length_of_some hb
      split
      · refine (parseString_ends _).bind fun r hr => ?_
        exact hws.trans hr
      split
      · refine (objectFrom_ends (skipJsonValue_ends room) _ _ (by omega)).mono fun j hj => ?_
        omega
      split
      · refine (arrayFrom_ends (skipJsonValue_ends room) _ _ (by omega)).mono fun j hj => ?_
        omega
      split
      · exact hws.trans (le_skipWhile _ _)
      split
      · exact hws.trans (Nat.le_add_right _ _)
      split
      · exact hws.trans (Nat.le_add_right _ _)
      split
      · exact hws.trans (Nat.le_add_right _ _)
      · exact hws

theorem sectionFrom_ends (sectionName : Bytes) : ∀ (fuel i : Nat) (seenKeys : List Bytes), bytes.length - i < fuel →
    Ends (fun r => i ≤ r.2) (sectionFrom bytes sectionName fuel i seenKeys)
  | 0, _, _, h => absurd h (Nat.not_lt_zero _)
  | fuel + 1, i, seenKeys, h => by
    have hws := @le_skipWs bytes i
    unfold sectionFrom
    simp only
    split
    · exact hws.trans (Nat.le_succ _)
    split
    · refine (parseString_ends _).bind fun r hr => ?_
      have hws' := @le_skipWs bytes r.2
      split
      · trivial
      split
      · trivial
      split
      · exact hws.trans (hr.trans hws')
      refine (skipJsonValue_ends _ _).bind fun j hj => ?_
      have hws'' := @le_skipWs bytes j
      split
      · rename_i hcomma
        have hlt := lt_length_of_some hcomma
        refine (sectionFrom_ends sectionName fuel _ _ (by omega)).mono fun k hk => ?_
        omega
      · split
        · show i ≤ skipWs bytes j + 1
          omega
        · show i ≤ skipWs bytes j
          omega
    · exact hws

theorem rootMember_ends (key : Bytes) (i : Nat) (s : RootScan) :
    Ends (fun r => ∀ fin ∈ r.1, i ≤ fin) (rootMember bytes key i s) := by
  have hscan : Ends (fun r => i ≤ r.2) (scanObjectForDuplicateKeys bytes i key) := by
    refine (sectionFrom_ends key (bytes.length + 1) (i + 1) [] (by omega)).mono fun r hr => ?_
    omega
  unfold rootMember
  split
  · split
    · trivial
    simp only
    split
    · exact fun fin hfin => absurd hfin (Option.not_mem_none fin)
    · refine hscan.bind fun r hr fin hfin => ?_
      cases hfin
      exact hr
  split
  · split
    · trivial
    simp only
    split
    · exact fun fin hfin => absurd hfin (Option.not_mem_none fin)
    · refine hscan.bind fun r hr fin hfin => ?_
      cases hfin
      exact hr
  · refine (skipJsonValue_ends _ _).bind fun j hj fin hfin => ?_
    cases hfin
    exact hj

theorem rootFrom_ends : ∀ (fuel i : Nat) (s : RootScan), bytes.length - i < fuel →
    Ends (fun _ => True) (rootFrom bytes fuel i s)
  | 0, _, _, h => absurd h (Nat.not_lt_zero _)
  | fuel + 1, i, s, h => by
    have hws := @le_skipWs bytes i
    unfold rootFrom
    simp only
    split
    · trivial
    refine (parseString_ends _).bind fun r hr => ?_
    have hws' := @le_skipWs bytes r.2
    split
    · trivial
    split
    · trivial
    refine (rootMember_ends _ _ _).bind fun found hfound => ?_
    have hws'' := @le_skipWs bytes (skipWs bytes r.2 + 1)
    obtain ⟨next, s'⟩ := found
    cases next with
    | none => trivial
    | some fin =>
      have hfin := hfound fin rfl
      have hws3 := @le_skipWs bytes fin
      simp only
      split
      · rename_i hcomma
        have hlt := lt_length_of_some hcomma
        exact rootFrom_ends fuel _ s' (by omega)
      · trivial

theorem scanRootSections_ends (bytes : Bytes) : Ends (fun _ => True) (scanRootSections bytes) := by
  unfold scanRootSections
  simp only
  split
  · trivial
  · exact rootFrom_ends _ _ _ (by omega)

end

end Congruent.KeyScan
