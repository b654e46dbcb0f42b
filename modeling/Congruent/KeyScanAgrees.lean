import Mathlib.Data.List.Nodup
import Congruent.KeyScan

/-!
# The raw scan and the grammar

On a text of the grammar each skipping function stops right behind the value it skips,
so the scan of the root sees just the members of the root and of its sections.
-/

namespace Congruent.KeyScan

open Store (Bytes utf8 ofUtf8)
open JsonText (quote backslash comma colon openBrace closeBrace openBracket closeBracket Shape Ws
  Chars Number IsLiteral
  IsDigit Digits Elements Members ObjectText)

section
variable {bytes : Bytes}

/-! ## Positions -/

theorem getElem?_of_drop {i : Nat} {b : UInt8} {rest : Bytes} (h : bytes.drop i = b :: rest) : bytes[i]? =
    some b := by
  rw [← List.head?_drop, h]
  rfl

theorem drop_add {i n : Nat} {text rest : Bytes} (h : bytes.drop i = text ++ rest) (hn : text.length = n) :
    bytes.drop (i + n) = rest := by
  rw [← List.drop_drop, h, List.drop_left' hn]

theorem lt_of_drop {i : Nat} {b : UInt8} {rest : Bytes} (h : bytes.drop i = b :: rest) : i < bytes.length :=
  lt_length_of_some (getElem?_of_drop h)

theorem skipWhile_eq {p : UInt8 → Bool} {i : Nat} {text rest : Bytes} (h : bytes.drop i = text ++ rest)
    (htext : ∀ b ∈ text, p b = true) (hrest : ∀ b ∈ rest.head?, p b = false) :
    skipWhile bytes p i = i + text.length := by
  unfold skipWhile
  rw [h, List.takeWhile_append_of_pos htext]
  cases rest with
  | nil => simp
  | cons b rest => simp [hrest b rfl]

theorem isAsciiWhitespace_of_ws {text : Bytes} (h : Ws text) : ∀ b ∈ text, isAsciiWhitespace b = true := by
  intro b hb
  have hws := h b hb
  simp only [JsonText.IsWs, List.mem_cons, List.not_mem_nil, or_false] at hws
  rcases hws with rfl | rfl | rfl | rfl <;> rfl

theorem skipWs_eq {i : Nat} {text rest : Bytes} (h : bytes.drop i = text ++ rest) (htext : Ws text)
    (hrest : ∀ b ∈ rest.head?, isAsciiWhitespace b = false) : skipWs bytes i = i + text.length :=
  skipWhile_eq h (isAsciiWhitespace_of_ws htext) hrest

/-! ## Strings -/

/-- What the loop of `parse_string` takes for the inside of a string. -/
inductive Quotable : Bytes → Prop
  | nil : Quotable []
  | plain {b : UInt8} {text : Bytes} : b ≠ quote → b ≠ backslash → Quotable text → Quotable (b :: text)
  | escaped {b : UInt8} {text : Bytes} : Quotable text → Quotable (backslash :: b :: text)

theorem hex_plain {b : UInt8} (h : JsonText.IsHex b) : b ≠ quote ∧ b ≠ backslash := by
  constructor
  · rintro rfl
    exact absurd h (by unfold JsonText.IsHex IsDigit; decide)
  · rintro rfl
    exact absurd h (by unfold JsonText.IsHex IsDigit; decide)

theorem Quotable.of_chars {text : Bytes} (h : Chars text) : Quotable text := by
  induction h with
  | nil => exact .nil
  | plain hq hb _ _ ih => exact .plain hq hb ih
  | escape _ _ ih => exact .escaped ih
  | unicode ha hb hc hd _ ih =>
    exact .escaped (.plain (hex_plain ha).1 (hex_plain ha).2 (.plain (hex_plain hb).1 (hex_plain hb).2
      (.plain (hex_plain hc).1 (hex_plain hc).2 (.plain (hex_plain hd).1 (hex_plain hd).2 ih))))

theorem stringFrom_succ {stringStart fuel i : Nat} {b : UInt8} (h : bytes[i]? = some b) :
    stringFrom bytes stringStart (fuel + 1) i =
      if b = backslash then stringFrom bytes stringStart fuel (i + 2)
      else if b = quote then (slice bytes stringStart i >>= fun text => .ok (text, i + 1))
      else stringFrom bytes stringStart fuel (i + 1) := by
  have hindex : index bytes i = .ok b := by
    unfold index
    rw [h]
  rw [stringFrom, if_pos (lt_length_of_some h), hindex]
  rfl

theorem stringFrom_eq {stringStart : Nat} {rest : Bytes} : ∀ {text : Bytes}, Quotable text → ∀ (fuel i : Nat),
    bytes.length - i < fuel → stringStart ≤ i → bytes.drop i = text ++ quote :: rest →
    stringFrom bytes stringStart fuel i =
      .ok ((bytes.drop stringStart).take (i + text.length - stringStart), i + text.length + 1)
  | _, _, 0, _, hfuel, _, _ => absurd hfuel (Nat.not_lt_zero _)
  | _, .nil, fuel + 1, i, _, hstart, h => by
    have hslice : slice bytes stringStart i = .ok ((bytes.drop stringStart).take (i - stringStart)) :=
      if_pos ⟨hstart, (lt_of_drop h).le⟩
    rw [stringFrom_succ (getElem?_of_drop h), if_neg (by decide), if_pos rfl, hslice]
    rfl
  | _, @Quotable.plain b text hq hb htext, fuel + 1, i, hfuel, hstart, h => by
    have hi := lt_of_drop h
    have hfuel' : bytes.length - (i + 1) < fuel := by omega
    have ih := stringFrom_eq htext fuel (i + 1) hfuel' (hstart.trans (Nat.le_add_right i _))
      (@drop_add bytes i 1 [b] _ h rfl)
    rw [stringFrom_succ (getElem?_of_drop h), if_neg hb, if_neg hq, ih, List.length_cons]
    have hlen : i + 1 + text.length = i + (text.length + 1) := by omega
    rw [hlen]
  | _, @Quotable.escaped b text htext, fuel + 1, i, hfuel, hstart, h => by
    have hi := lt_of_drop h
    have hfuel' : bytes.length - (i + 2) < fuel := by omega
    have ih := stringFrom_eq htext fuel (i + 2) hfuel' (hstart.trans (Nat.le_add_right i _))
      (@drop_add bytes i 2 [backslash, b] _ h rfl)
    rw [stringFrom_succ (getElem?_of_drop h), if_pos rfl, ih, List.length_cons, List.length_cons]
    have hlen : i + 2 + text.length = i + (text.length + 1 + 1) := by omega
    rw [hlen]

theorem parseString_eq {i : Nat} {text rest : Bytes} (htext : Chars text)
    (h : bytes.drop i = quote :: (text ++ quote :: rest)) : parseString bytes i =
      .ok (text, i + text.length + 2) := by
  have hrest : bytes.drop (i + 1) = text ++ quote :: rest := @drop_add bytes i 1 [quote] _ h rfl
  have hquote : ¬ bytes[i]? ≠ some quote := fun hne => hne (getElem?_of_drop h)
  have hlen : i + 1 + text.length + 1 = i + text.length + 2 := by omega
  unfold parseString
  rw [if_neg hquote, stringFrom_eq (.of_chars htext) _ _ (by omega) (Nat.le_refl _) hrest, hrest,
    Nat.add_sub_cancel_left, List.take_left' rfl, hlen]

/-! ## Numbers and literals -/

/-- What may come behind a value: a separator, a closing bracket, white space or nothing. -/
def Follow (rest : Bytes) : Prop := ∀ b ∈ rest.head?, endsScalar b = true

theorem digit_inside {b : UInt8} (h : IsDigit b) : endsScalar b = false := by
  by_contra hends
  simp only [endsScalar, List.mem_cons, List.not_mem_nil, or_false, Bool.not_eq_false, decide_eq_true_eq] at hends
  rcases hends with rfl | rfl | rfl | rfl | rfl | rfl | rfl <;> exact absurd h (by unfold IsDigit; decide)

theorem number_inside {text : Bytes} (h : Number text) : ∀ b ∈ text, endsScalar b = false := by
  obtain ⟨sign, int, fraction, exponent, rfl, hsign, hint, hfraction, hexponent⟩ := h
  have hsigned : ∀ {sign : Bytes}, sign = [] ∨ sign = [0x2B] ∨ sign = [0x2D] → ∀ b ∈ sign,
      endsScalar b = false := by
    rintro sign (rfl | rfl | rfl) b hb
    · cases hb
    · rw [List.mem_singleton.mp hb]
      rfl
    · rw [List.mem_singleton.mp hb]
      rfl
  intro b hb
  simp only [List.mem_append, or_assoc] at hb
  rcases hb with hb | hb | hb | hb
  · exact hsigned (hsign.imp_right .inr) b hb
  · exact digit_inside (hint.1.2 b hb)
  · rcases hfraction with rfl | ⟨digits, rfl, hdigits⟩
    · cases hb
    · rcases List.mem_cons.mp hb with rfl | hb
      · rfl
      · exact digit_inside (hdigits.2 b hb)
  · rcases hexponent with rfl | ⟨e, sign', digits, rfl, he, hsign', hdigits⟩
    · cases hb
    · rcases List.mem_cons.mp hb with rfl | hb
      · rcases he with rfl | rfl <;> rfl
      · rcases List.mem_append.mp hb with hb | hb
        · exact hsigned hsign' b hb
        · exact digit_inside (hdigits.2 b hb)

theorem number_head {text : Bytes} (h : Number text) : ∃ b rest, text = b :: rest ∧ (b = 0x2D ∨ IsDigit b) := by
  obtain ⟨sign, int, fraction, exponent, rfl, hsign, hint, -, -⟩ := h
  rcases hsign with rfl | rfl
  · obtain ⟨b, int', rfl⟩ := List.exists_cons_of_ne_nil hint.1.1
    exact ⟨b, _, rfl, .inr (hint.1.2 b List.mem_cons_self)⟩
  · exact ⟨0x2D, _, rfl, .inl rfl⟩

theorem digit_not_ws {b : UInt8} (h : IsDigit b) : isAsciiWhitespace b = false := by
  by_contra hws
  simp only [isAsciiWhitespace, List.mem_cons, List.not_mem_nil, or_false, Bool.not_eq_false,
    decide_eq_true_eq] at hws
  rcases hws with rfl | rfl | rfl | rfl | rfl <;> exact absurd h (by unfold IsDigit; decide)

theorem value_head {n : Nat} {text : Bytes} {shape : Shape} (h : JsonText.Value n text shape) :
    ∃ b rest, text = b :: rest ∧ isAsciiWhitespace b = false ∧ b ≠ closeBracket ∧
      (b = openBrace ↔ ∃ names, shape = .object names) := by
  have hother : ∀ b : UInt8, b ≠ openBrace → (b = openBrace ↔ ∃ names, Shape.other = .object names) := by
    intro b hb
    exact ⟨fun heq => absurd heq hb, fun ⟨_, heq⟩ => by cases heq⟩
  cases h with
  | string _ => exact ⟨_, _, rfl, rfl, by decide, hother _ (by decide)⟩
  | number h =>
    obtain ⟨b, rest, rfl, hb⟩ := number_head h
    refine ⟨b, rest, rfl, ?_, ?_, hother b ?_⟩
    · rcases hb with rfl | hb
      · rfl
      · exact digit_not_ws hb
    · rintro rfl
      exact absurd (number_inside h closeBracket List.mem_cons_self) (by decide)
    · rintro rfl
      exact absurd hb (by unfold IsDigit; decide)
  | literal h =>
    rcases h with rfl | rfl | rfl
    · exact ⟨_, _, rfl, rfl, by decide, hother _ (by decide)⟩
    · exact ⟨_, _, rfl, rfl, by decide, hother _ (by decide)⟩
    · exact ⟨_, _, rfl, rfl, by decide, hother _ (by decide)⟩
  | emptyArray _ => exact ⟨_, _, rfl, rfl, by decide, hother _ (by decide)⟩
  | array _ => exact ⟨_, _, rfl, rfl, by decide, hother _ (by decide)⟩
  | emptyObject _ => exact ⟨_, _, rfl, rfl, by decide, fun _ => ⟨_, rfl⟩, fun _ => rfl⟩
  | object _ => exact ⟨_, _, rfl, rfl, by decide, fun _ => ⟨_, rfl⟩, fun _ => rfl⟩

theorem follow_append {after rest : Bytes} {c : UInt8} (h : Ws after) (hc : endsScalar c = true) :
    Follow (after ++ c :: rest) := by
  intro b hb
  cases after with
  | nil =>
    cases hb
    exact hc
  | cons a after =>
    have hws := h a List.mem_cons_self
    rw [Option.some.inj hb] at hws
    simp only [JsonText.IsWs, List.mem_cons, List.not_mem_nil, or_false] at hws
    rcases hws with rfl | rfl | rfl | rfl <;> rfl

/-! ## Skipping values -/

/-- A skipping function stops right behind each value that nests so deep. -/
def Skips (bytes : Bytes) (value : Nat → Scan Nat) (n : Nat) : Prop :=
  ∀ {text : Bytes} {shape : Shape} {i : Nat} {before rest : Bytes}, JsonText.Value n text shape → Ws before →
    Follow rest → bytes.drop i = before ++ (text ++ rest) → value i = .ok (i + before.length + text.length)

theorem skipWs_to {i : Nat} {before rest : Bytes} {c : UInt8} (h : bytes.drop i = before ++ c :: rest)
    (hws : Ws before)
    (hc : isAsciiWhitespace c = false) :
    skipWs bytes i = i + before.length ∧ bytes[i + before.length]? = some c ∧
      bytes.drop (i + before.length + 1) = rest := by
  have hdrop := drop_add h rfl
  refine ⟨skipWs_eq h hws fun b hb => ?_, getElem?_of_drop hdrop, @drop_add bytes _ 1 [c] _ hdrop rfl⟩
  cases hb
  exact hc

theorem name_to {i : Nat} {before name between rest : Bytes} (hbefore : Ws before) (hname : Chars name)
    (hbetween : Ws between)
    (h : bytes.drop i = before ++ quote :: (name ++ quote :: (between ++ colon :: rest))) :
    skipWs bytes i = i + before.length ∧ bytes[i + before.length]? = some quote ∧
      parseString bytes (i + before.length) = .ok (name, i + before.length + name.length + 2) ∧
      skipWs bytes (i + before.length + name.length + 2) = i + before.length + name.length + 2 + between.length ∧
      bytes[i + before.length + name.length + 2 + between.length]? = some colon ∧
      bytes.drop (i + before.length + name.length + 2 + between.length + 1) = rest := by
  obtain ⟨hskip, hquote, hinside⟩ := skipWs_to h hbefore (by decide)
  have hstring := drop_add h rfl
  have hnext : bytes.drop (i + before.length + name.length + 2) = between ++ colon :: rest := by
    have hend := @drop_add bytes _ 1 [quote] _ (drop_add hinside rfl) rfl
    rwa [show i + before.length + 1 + name.length + 1 = i + before.length + name.length + 2 by omega] at hend
  obtain ⟨hskip', hcolon, hrest⟩ := skipWs_to hnext hbetween (by decide)
  exact ⟨hskip, hquote, parseString_eq hname hstring, hskip', hcolon, hrest⟩

theorem Skips.value_to {value : Nat → Scan Nat} {n : Nat} (hvalue : Skips bytes value n) {i : Nat}
    {before text after rest : Bytes} {shape : Shape} {c : UInt8} (hbefore : Ws before)
    (htext : JsonText.Value n text shape) (hafter : Ws after) (hc : endsScalar c = true)
    (hws : isAsciiWhitespace c = false) (h : bytes.drop i = before ++ (text ++ (after ++ c :: rest))) :
    value i = .ok (i + before.length + text.length) ∧
      skipWs bytes (i + before.length + text.length) = i + before.length + text.length + after.length ∧
      bytes[i + before.length + text.length + after.length]? = some c ∧
      bytes.drop (i + before.length + text.length + after.length + 1) = rest := by
  have hdrop := drop_add (drop_add h rfl) rfl
  exact ⟨hvalue htext hbefore (follow_append hafter hc) h, skipWs_to hdrop hafter hws⟩

theorem ws_nil : Ws [] := fun _ hb => absurd hb List.not_mem_nil

section
variable {value : Nat → Scan Nat} {n : Nat} (hvalue : Skips bytes value n)
include hvalue

/-- One turn of the loop over an array: an element with white space around it, and the byte
behind it. -/
theorem arrayFrom_step {fuel i : Nat} {before text after rest : Bytes} {shape : Shape} {c : UInt8}
    (hbefore : Ws before)
    (htext : JsonText.Value n text shape) (hafter : Ws after) (hc : endsScalar c = true)
    (hws : isAsciiWhitespace c = false) (h : bytes.drop i = before ++ (text ++ (after ++ c :: rest))) :
    arrayFrom bytes value (fuel + 1) i =
      (if c = comma then arrayFrom bytes value fuel (i + before.length + text.length + after.length + 1)
      else if c = closeBracket then .ok (i + before.length + text.length + after.length + 1)
      else .ok (i + before.length + text.length + after.length)) := by
  obtain ⟨b, tail, rfl, hbws, hbne, -⟩ := value_head htext
  obtain ⟨hskip, hfirst, -⟩ := skipWs_to h hbefore hbws
  obtain ⟨hv, hskip', hnext, -⟩ := hvalue.value_to ws_nil htext hafter hc hws (drop_add h rfl)
  rw [List.length_nil, Nat.add_zero] at hv hskip' hnext
  have hne : ¬ (some b = some closeBracket) := fun heq => hbne (Option.some.inj heq)
  rw [arrayFrom]
  simp only [hskip, hfirst, hne, hv, reduceCtorEq, if_false]
  show (if bytes[skipWs bytes (i + before.length + (b :: tail).length)]? = some comma then _ else _) = _
  simp only [hskip', hnext, Option.some.injEq]

theorem arrayFrom_eq {rest : Bytes} : ∀ (fuel i : Nat) (text : Bytes), bytes.length - i < fuel → Elements n text →
    bytes.drop i = text ++ closeBracket :: rest → arrayFrom bytes value fuel i = .ok (i + text.length + 1)
  | 0, _, _, hfuel, _, _ => absurd hfuel (Nat.not_lt_zero _)
  | fuel + 1, i, _, hfuel, helements, h => by
    cases helements with
    | one hbefore htext hafter =>
      rw [List.append_assoc, List.append_assoc] at h
      rw [arrayFrom_step hvalue hbefore htext hafter (by decide) (by decide) h, if_neg (by decide), if_pos rfl]
      simp only [List.length_append]
      exact congrArg Except.ok (by omega)
    | cons hbefore htext hafter hrest =>
      rw [List.append_assoc, List.append_assoc, List.append_assoc, List.cons_append] at h
      obtain ⟨-, -, hcomma, hdrop⟩ := hvalue.value_to hbefore htext hafter (by decide) (by decide) h
      have hlt := lt_length_of_some hcomma
      rw [arrayFrom_step hvalue hbefore htext hafter (by decide) (by decide) h, if_pos rfl,
        arrayFrom_eq fuel _ _ (by omega) hrest hdrop]
      simp only [List.length_append, List.length_cons]
      exact congrArg Except.ok (by omega)

theorem objectFrom_step (fuel : Nat) {i : Nat} {before name between before' text after rest : Bytes}
    {shape : Shape} {c : UInt8}
    (hbefore : Ws before) (hname : Chars name) (hbetween : Ws between) (hbefore' : Ws before')
    (htext : JsonText.Value n text shape) (hafter : Ws after) (hc : endsScalar c = true)
    (hws : isAsciiWhitespace c = false)
    (h : bytes.drop i =
      before ++ quote :: (name ++ quote :: (between ++ colon :: (before' ++ (text ++ (after ++ c :: rest)))))) :
    ∃ j, i < j ∧ j = i + (before.length + name.length + between.length + before'.length +
      text.length + after.length + 3) ∧
      bytes[j]? = some c ∧ bytes.drop (j + 1) = rest ∧
      objectFrom bytes value (fuel + 1) i =
        (if c = comma then objectFrom bytes value fuel (j + 1)
        else if c = closeBrace then .ok (j + 1) else .ok j) := by
  obtain ⟨hskip, hquote, hstring, hskip', hcolon, hdrop⟩ := name_to hbefore hname hbetween h
  obtain ⟨hv, hskip'', hnext, hrest⟩ := hvalue.value_to hbefore' htext hafter hc hws hdrop
  refine ⟨_, ?_, ?_, hnext, hrest, ?_⟩
  · omega
  · omega
  · have hne : ¬ (some quote = some closeBrace) := by decide
    rw [objectFrom]
    simp only [hskip, hquote, hne, if_false, if_true, hstring]
    show (if bytes[skipWs bytes _]? ≠ some colon then _ else _) = _
    rw [hskip', hcolon, if_neg (fun hne => hne rfl), hv]
    show (if bytes[skipWs bytes _]? = some comma then _ else _) = _
    simp only [hskip'', hnext, Option.some.injEq]

theorem objectFrom_eq {rest : Bytes} : ∀ (fuel i : Nat) (text : Bytes) (members : List (Bytes × Shape)),
    bytes.length - i < fuel → Members n text members → bytes.drop i = text ++ closeBrace :: rest →
    objectFrom bytes value fuel i = .ok (i + text.length + 1)
  | 0, _, _, _, hfuel, _, _ => absurd hfuel (Nat.not_lt_zero _)
  | fuel + 1, i, _, _, hfuel, hmembers, h => by
    cases hmembers with
    | one hbefore hname hbetween hbefore' htext hafter =>
      simp only [List.append_assoc, List.cons_append] at h
      obtain ⟨j, -, hj, -, -, heq⟩ := objectFrom_step hvalue fuel hbefore hname hbetween hbefore'
        htext hafter (by decide)
        (by decide) h
      rw [heq, if_neg (by decide), if_pos rfl]
      simp only [List.length_append, List.length_cons]
      exact congrArg Except.ok (by omega)
    | cons hbefore hname hbetween hbefore' htext hafter hrest =>
      simp only [List.append_assoc, List.cons_append] at h
      obtain ⟨j, hlt, hj, hcomma, hdrop, heq⟩ := objectFrom_step hvalue fuel hbefore hname hbetween
        hbefore' htext hafter
        (by decide) (by decide) h
      have hlt' := lt_length_of_some hcomma
      rw [heq, if_pos rfl, objectFrom_eq fuel _ _ _ (by omega) hrest hdrop]
      simp only [List.length_append, List.length_cons]
      exact congrArg Except.ok (by omega)

end

section
variable {value : Nat → Scan Nat}

theorem arrayFrom_empty {fuel i : Nat} {inside rest : Bytes} (hinside : Ws inside)
    (h : bytes.drop i = inside ++ closeBracket :: rest) :
    arrayFrom bytes value (fuel + 1) i = .ok (i + inside.length + 1) := by
  obtain ⟨hskip, hclose, -⟩ := skipWs_to h hinside (by decide)
  rw [arrayFrom]
  simp only [hskip, hclose, if_true]

theorem objectFrom_empty {fuel i : Nat} {inside rest : Bytes} (hinside : Ws inside)
    (h : bytes.drop i = inside ++ closeBrace :: rest) :
    objectFrom bytes value (fuel + 1) i = .ok (i + inside.length + 1) := by
  obtain ⟨hskip, hclose, -⟩ := skipWs_to h hinside (by decide)
  rw [objectFrom]
  simp only [hskip, hclose, if_true]

end

theorem skipJsonValue_succ {room n : Nat} (ih : ∀ n, n < room → Skips bytes (skipJsonValue bytes room) n)
    (hn : n < room + 1) {text : Bytes} {shape : Shape} {i : Nat} {before rest : Bytes}
    (htext : JsonText.Value n text shape) (hbefore : Ws before) (hfollow : Follow rest)
    (h : bytes.drop i = before ++ (text ++ rest)) :
    skipJsonValue bytes (room + 1) i = .ok (i + before.length + text.length) := by
  have hinner := drop_add h rfl
  obtain ⟨b, tail, hcons, hws, -, -⟩ := value_head htext
  have hbegin : bytes.drop i = before ++ b :: (tail ++ rest) := by
    rw [h, hcons]
    rfl
  obtain ⟨hskip, hfirst, -⟩ := skipWs_to hbegin hbefore hws
  rw [skipJsonValue]
  simp only [hskip, hfirst]
  cases htext with
  | @string _ name hname =>
    cases hcons
    rw [List.cons_append, List.append_assoc] at hinner
    rw [if_pos rfl, parseString_eq hname hinner]
    simp only [List.length_cons, List.length_append, List.length_nil]
    exact congrArg Except.ok (by omega)
  | number hnumber =>
    obtain ⟨b', tail', hcons', hb⟩ := number_head hnumber
    obtain rfl : b' = b := by
      rw [hcons] at hcons'
      exact (List.cons.inj hcons').1.symm
    have hdigit : b' = 0x2D ∨ 0x30 ≤ b' ∧ b' ≤ 0x39 := hb
    have hne : b' ≠ quote ∧ b' ≠ openBrace ∧ b' ≠ openBracket := by
      refine ⟨?_, ?_, ?_⟩ <;>
      · rintro rfl
        exact absurd hb (by unfold IsDigit; decide)
    rw [if_neg hne.1, if_neg hne.2.1, if_neg hne.2.2, if_pos hdigit]
    refine congrArg Except.ok (skipWhile_eq hinner (fun c hc => ?_) fun c hc => ?_)
    · rw [number_inside hnumber c hc]
      rfl
    · rw [hfollow c hc]
      rfl
  | literal hliteral =>
    rcases hliteral with rfl | rfl | rfl
    · cases hcons
      have htake : (bytes.drop (i + before.length)).take 4 = utf8 "true" := by
        rw [hinner]
        rfl
      simp only [htake]
      rfl
    · cases hcons
      have htake : (bytes.drop (i + before.length)).take 5 = utf8 "false" := by
        rw [hinner]
        rfl
      simp only [htake]
      rfl
    · cases hcons
      have htake : (bytes.drop (i + before.length)).take 4 = utf8 "null" := by
        rw [hinner]
        rfl
      simp only [htake]
      rfl
  | @emptyArray _ inside hinside =>
    cases hcons
    rw [List.cons_append, List.append_assoc] at hinner
    have hdrop := @drop_add bytes _ 1 [openBracket] _ hinner rfl
    rw [if_neg (by decide), if_neg (by decide), if_pos rfl, arrayFrom_empty hinside hdrop]
    simp only [List.length_cons, List.length_append, List.length_nil]
    exact congrArg Except.ok (by omega)
  | @array n _ helements =>
    cases hcons
    rw [List.cons_append, List.append_assoc] at hinner
    have hdrop := @drop_add bytes _ 1 [openBracket] _ hinner rfl
    rw [if_neg (by decide), if_neg (by decide), if_pos rfl,
      arrayFrom_eq (ih n (by omega)) _ _ _ (by omega) helements hdrop]
    simp only [List.length_cons, List.length_append, List.length_nil]
    exact congrArg Except.ok (by omega)
  | @emptyObject _ inside hinside =>
    cases hcons
    rw [List.cons_append, List.append_assoc] at hinner
    have hdrop := @drop_add bytes _ 1 [openBrace] _ hinner rfl
    rw [if_neg (by decide), if_pos rfl, objectFrom_empty hinside hdrop]
    simp only [List.length_cons, List.length_append, List.length_nil]
    exact congrArg Except.ok (by omega)
  | @object n _ _ hmembers =>
    cases hcons
    rw [List.cons_append, List.append_assoc] at hinner
    have hdrop := @drop_add bytes _ 1 [openBrace] _ hinner rfl
    rw [if_neg (by decide), if_pos rfl,
      objectFrom_eq (ih n (by omega)) _ _ _ _ (by omega) hmembers hdrop]
    simp only [List.length_cons, List.length_append, List.length_nil]
    exact congrArg Except.ok (by omega)

theorem skipJsonValue_eq (room : Nat) : ∀ n, n < room → Skips bytes (skipJsonValue bytes room) n := by
  induction room with
  | zero => exact fun n hn => absurd hn (Nat.not_lt_zero n)
  | succ room ih =>
    intro n hn text shape i before rest htext hbefore hfollow h
    exact skipJsonValue_succ ih hn htext hbefore hfollow h

/-! ## Sections -/

def Failed {A : Type} (x : Scan A) : Prop := ∃ message, x = .error (.badServerResponse message)

def Answers {A : Type} (x : Scan A) : Option A → Prop
  | some a => x = .ok a
  | none => Failed x

/-- Names that differ from each other and from those before. -/
def Distinct (seen names : List Bytes) : Prop := names.Nodup ∧ ∀ name ∈ names, name ∉ seen

theorem distinct_cons {seen : List Bytes} {name : Bytes} {shape : Shape} {members : List (Bytes × Shape)} :
    Distinct seen (((name, shape) :: members).map Prod.fst) ↔
      name ∉ seen ∧ Distinct (name :: seen) (members.map Prod.fst) := by
  simp only [Distinct, List.map_cons, List.nodup_cons, List.mem_cons, not_or]
  constructor
  · rintro ⟨⟨hname, hnodup⟩, hall⟩
    refine ⟨hall name (.inl rfl), hnodup, fun k hk => ⟨?_, hall k (.inr hk)⟩⟩
    rintro rfl
    exact hname hk
  · rintro ⟨hseen, hnodup, hall⟩
    refine ⟨⟨fun hname => (hall name hname).1 rfl, hnodup⟩, fun k hk => ?_⟩
    rcases hk with rfl | hk
    · exact hseen
    · exact (hall k hk).2

instance decidableDistinct (seen names : List Bytes) : Decidable (Distinct seen names) :=
  inferInstanceAs (Decidable (_ ∧ _))

theorem sectionFrom_step {n : Nat} (hn : n < maxJsonScanDepth) (sectionName : Bytes)
    (fuel : Nat) (seen : List Bytes)
    {i : Nat} {before name between before' text after rest : Bytes} {shape : Shape} {c : UInt8}
    (hbefore : Ws before)
    (hname : Chars name) (hplain : backslash ∉ name) (hbetween : Ws between) (hbefore' : Ws before')
    (htext : JsonText.Value n text shape) (hafter : Ws after) (hc : endsScalar c = true)
    (hws : isAsciiWhitespace c = false)
    (h : bytes.drop i =
      before ++ quote :: (name ++ quote :: (between ++ colon :: (before' ++ (text ++ (after ++ c :: rest)))))) :
    ∃ j, i < j ∧ j = i + (before.length + name.length + between.length + before'.length +
      text.length + after.length + 3) ∧
      bytes[j]? = some c ∧ bytes.drop (j + 1) = rest ∧
      (name ∈ seen → Failed (sectionFrom bytes sectionName (fuel + 1) i seen)) ∧
      (name ∉ seen → sectionFrom bytes sectionName (fuel + 1) i seen =
        if c = comma then sectionFrom bytes sectionName fuel (j + 1) (name :: seen)
        else if c = closeBrace then .ok (seen.length + 1, j + 1) else .ok (seen.length + 1, j)) := by
  obtain ⟨hskip, hquote, hstring, hskip', hcolon, hdrop⟩ := name_to hbefore hname hbetween h
  have hskips : Skips bytes (skipJsonValue bytes maxJsonScanDepth) n := skipJsonValue_eq maxJsonScanDepth n hn
  obtain ⟨hv, hskip'', hnext, hrest⟩ := Skips.value_to hskips hbefore' htext hafter hc hws hdrop
  have hne : ¬ (some quote = some closeBrace) := by decide
  have hescapes : ¬ containsEscapes name = true := by simpa [containsEscapes] using hplain
  refine ⟨_, ?_, ?_, hnext, hrest, fun hseen => ?_, fun hseen => ?_⟩
  · omega
  · omega
  · rw [sectionFrom]
    simp only [hskip, hquote, hne, if_false, if_true, hstring]
    show Failed (if containsEscapes name = true then _ else if seen.contains name = true then _ else _)
    rw [if_neg hescapes, if_pos (List.contains_iff_mem.mpr hseen)]
    exact ⟨_, rfl⟩
  · rw [sectionFrom]
    simp only [hskip, hquote, hne, if_false, if_true, hstring]
    show (if containsEscapes name = true then _ else if seen.contains name = true then _ else _) = _
    rw [if_neg hescapes, if_neg fun h => hseen (List.contains_iff_mem.mp h)]
    show (if bytes[skipWs bytes _]? ≠ some colon then _ else _) = _
    rw [hskip', hcolon, if_neg (fun hne => hne rfl), hv]
    show (if bytes[skipWs bytes _]? = some comma then _ else _) = _
    simp only [hskip'', hnext, Option.some.injEq, List.length_cons]

theorem sectionFrom_eq {n : Nat} (hn : n < maxJsonScanDepth) (sectionName : Bytes) {rest : Bytes} :
    ∀ (fuel i : Nat) (seen : List Bytes) (text : Bytes) (members : List (Bytes × Shape)),
    bytes.length - i < fuel → Members n text members → (∀ m ∈ members, backslash ∉ m.1) →
    bytes.drop i = text ++ closeBrace :: rest →
    Answers (sectionFrom bytes sectionName fuel i seen)
      (if Distinct seen (members.map Prod.fst) then some (seen.length + members.length,
        i + text.length + 1) else none)
  | 0, _, _, _, _, hfuel, _, _, _ => absurd hfuel (Nat.not_lt_zero _)
  | fuel + 1, i, seen, _, _, hfuel, hmembers, hplain, h => by
    cases hmembers with
    | @one _ _ name _ _ _ _ shape hbefore hname hbetween hbefore' htext hafter =>
      simp only [List.append_assoc, List.cons_append] at h
      obtain ⟨j, -, hj, -, -, hdup, hgo⟩ := sectionFrom_step hn sectionName fuel seen hbefore hname
        (hplain _ (List.mem_singleton_self _)) hbetween hbefore' htext hafter (by decide) (by decide) h
      have hd : Distinct seen ([(name, shape)].map Prod.fst) ↔ name ∉ seen := by simp [Distinct]
      by_cases hseen : name ∈ seen
      · rw [if_neg (fun hd' => hd.mp hd' hseen)]
        exact hdup hseen
      · rw [if_pos (hd.mpr hseen)]
        show _ = _
        rw [hgo hseen, if_neg (by decide), if_pos rfl]
        simp only [List.length_append, List.length_cons, List.length_nil]
        exact congrArg Except.ok (Prod.ext rfl (by simp only; omega))
    | @cons _ _ name _ _ _ _ _ shape members hbefore hname hbetween hbefore' htext hafter hrest =>
      simp only [List.append_assoc, List.cons_append] at h
      obtain ⟨j, hlt, hj, hcomma, hdrop, hdup, hgo⟩ := sectionFrom_step hn sectionName fuel seen hbefore hname
        (hplain _ List.mem_cons_self) hbetween hbefore' htext hafter (by decide) (by decide) h
      have hlt' := lt_length_of_some hcomma
      have hcons := @distinct_cons seen name shape members
      by_cases hseen : name ∈ seen
      · rw [if_neg (fun hd => (hcons.mp hd).1 hseen)]
        exact hdup hseen
      · have ih := sectionFrom_eq hn sectionName fuel (j + 1) (name :: seen) _ _ (by omega) hrest
          (fun m hm => hplain m (List.mem_cons_of_mem _ hm)) hdrop
        rw [hgo hseen, if_pos rfl]
        by_cases hd : Distinct (name :: seen) (members.map Prod.fst)
        · rw [if_pos hd] at ih
          rw [if_pos (hcons.mpr ⟨hseen, hd⟩)]
          refine ih.trans ?_
          simp only [List.length_append, List.length_cons]
          exact congrArg Except.ok (Prod.ext (by simp only; omega) (by simp only; omega))
        · rw [if_neg hd] at ih
          rw [if_neg (fun hd' => hd (hcons.mp hd').2)]
          exact ih

end

end Congruent.KeyScan
