import Congruent.KeyScanAgrees

/-!
# What the raw scan of a key response finds

A section that is no object ends the scan there, and what comes behind it is not looked
at; the scan agrees with the text where nothing behind it is wrong.
-/

namespace Congruent.KeyScan

open Store (Bytes utf8)
open JsonText (quote backslash comma colon openBrace closeBrace Shape Ws Chars Members ObjectText)

def IsSection (key : Bytes) : Prop := key = sectionVerifyKeys ∨ key = sectionOldVerifyKeys

instance decidableIsSection (key : Bytes) : Decidable (IsSection key) :=
  inferInstanceAs (Decidable (_ ∨ _))

theorem sections_differ : sectionVerifyKeys ≠ sectionOldVerifyKeys := by decide

/-! ## The scan on the members -/

def RootScan.seen (s : RootScan) (key : Bytes) : Bool :=
  if key = sectionVerifyKeys then s.seenVerifyKeys else s.seenOldVerifyKeys

def SectionCounts.of (counts : SectionCounts) (key : Bytes) : Nat :=
  if key = sectionVerifyKeys then counts.verifyKeys else counts.oldVerifyKeys

def RootScan.mark (s : RootScan) (key : Bytes) : RootScan :=
  if key = sectionVerifyKeys then { s with seenVerifyKeys := true } else { s with seenOldVerifyKeys := true }

def RootScan.record (s : RootScan) (key : Bytes) (count : Nat) : RootScan :=
  if key = sectionVerifyKeys then { s.mark key with counts := { s.counts with verifyKeys := count } }
  else { s.mark key with counts := { s.counts with oldVerifyKeys := count } }

def memberVerdict (key : Bytes) (shape : Shape) (s : RootScan) : Option (Bool × RootScan) :=
  if IsSection key then
    if s.seen key then none
    else
      match shape with
      | .other => some (false, s.mark key)
      | .object names => if names.Nodup then some (true, s.record key names.length) else none
  else some (true, s)

def verdict : List (Bytes × Shape) → RootScan → Option SectionCounts
  | [], s => some s.counts
  | (key, shape) :: members, s =>
    match memberVerdict key shape s with
    | none => none
    | some (false, s) => some s.counts
    | some (true, s) => verdict members s

def Plain (members : List (Bytes × Shape)) : Prop :=
  ∀ m ∈ members, backslash ∉ m.1 ∧ (IsSection m.1 → ∀ names, m.2 = .object names → ∀ name ∈ names, backslash ∉ name)

section
variable {bytes : Bytes}

theorem scanObject_eq {n : Nat} (hn : n ≤ maxJsonScanDepth) {text rest : Bytes} {names : List Bytes}
    (htext : JsonText.Value n text (.object names)) (hplain : ∀ name ∈ names, backslash ∉ name) {i : Nat}
    (h : bytes.drop i = text ++ rest) (key : Bytes) :
    Answers (scanObjectForDuplicateKeys bytes i key)
      (if names.Nodup then some (names.length, i + text.length) else none) := by
  unfold scanObjectForDuplicateKeys
  cases htext with
  | @emptyObject _ inside hinside =>
    rw [List.cons_append, List.append_assoc] at h
    obtain ⟨hskip, hclose, -⟩ := skipWs_to (@drop_add bytes i 1 [openBrace] _ h rfl) hinside (by decide)
    rw [if_pos List.nodup_nil]
    show sectionFrom bytes key (bytes.length + 1) (i + 1) [] = _
    rw [sectionFrom]
    simp only [hskip, hclose, if_true, List.length_cons, List.length_append, List.length_nil]
    exact congrArg Except.ok (Prod.ext rfl (by simp only; omega))
  | @object n _ members hmembers =>
    rw [List.cons_append, List.append_assoc] at h
    have hdrop := @drop_add bytes i 1 [openBrace] _ h rfl
    have hanswer := sectionFrom_eq (by omega) key (bytes.length + 1) (i + 1) [] _ _ (by omega) hmembers
      (fun m hm => hplain m.1 (List.mem_map_of_mem hm)) hdrop
    have hdistinct : Distinct [] (members.map Prod.fst) ↔ (members.map Prod.fst).Nodup :=
      ⟨fun hd => hd.1, fun hd => ⟨hd, fun _ _ => List.not_mem_nil⟩⟩
    by_cases hd : (members.map Prod.fst).Nodup
    · rw [if_pos (hdistinct.mpr hd)] at hanswer
      rw [if_pos hd]
      refine Eq.trans hanswer ?_
      simp only [List.length_cons, List.length_append, List.length_nil, List.length_map]
      exact congrArg Except.ok (Prod.ext (by simp only; omega) (by simp only; omega))
    · rw [if_neg (fun hd' => hd (hdistinct.mp hd'))] at hanswer
      rwa [if_neg hd]

theorem rootMember_again {key : Bytes} (hkey : IsSection key) {s : RootScan} (hseen : s.seen key = true) (i : Nat) :
    Failed (rootMember bytes key i s) := by
  unfold rootMember
  rcases hkey with rfl | rfl
  · have hseen' : s.seenVerifyKeys = true := hseen
    rw [if_pos rfl, if_pos hseen']
    exact ⟨_, rfl⟩
  · have hseen' : s.seenOldVerifyKeys = true := hseen
    rw [if_neg sections_differ.symm, if_pos rfl, if_pos hseen']
    exact ⟨_, rfl⟩

theorem rootMember_section {key : Bytes} (hkey : IsSection key) {s : RootScan}
    (hseen : s.seen key = false) (i : Nat) :
    rootMember bytes key i s =
      if bytes[i]? ≠ some openBrace then .ok (none, s.mark key)
      else scanObjectForDuplicateKeys bytes i key >>= fun r => .ok (some r.2, s.record key r.1) := by
  unfold rootMember
  rcases hkey with rfl | rfl
  · have hseen' : ¬ s.seenVerifyKeys = true := Bool.eq_false_iff.mp hseen
    rw [if_pos rfl, if_neg hseen']
    rfl
  · have hseen' : ¬ s.seenOldVerifyKeys = true := Bool.eq_false_iff.mp hseen
    rw [if_neg sections_differ.symm, if_pos rfl, if_neg hseen']
    rfl

theorem rootMember_other {key : Bytes} (hkey : ¬ IsSection key) (s : RootScan) (i : Nat) :
    rootMember bytes key i s = skipJsonValue bytes maxJsonScanDepth i >>= fun j => .ok (some j, s) := by
  unfold rootMember
  rw [if_neg (fun h => hkey (.inl h)), if_neg (fun h => hkey (.inr h))]

theorem rootMember_eq {n : Nat} (hn : n < maxJsonScanDepth) {key text rest : Bytes} {shape : Shape} {i : Nat}
    (htext : JsonText.Value n text shape) (hfollow : Follow rest)
    (hplain : IsSection key → ∀ names, shape = .object names → ∀ name ∈ names, backslash ∉ name)
    (h : bytes.drop i = text ++ rest) (s : RootScan) :
    Answers (rootMember bytes key i s)
      ((memberVerdict key shape s).map fun r => (if r.1 then some (i + text.length) else none, r.2)) := by
  unfold memberVerdict
  by_cases hkey : IsSection key
  · rw [if_pos hkey]
    cases hseen : s.seen key with
    | true => exact rootMember_again hkey hseen i
    | false =>
      obtain ⟨b, tail, hcons, -, -, hbrace⟩ := value_head htext
      have hbegin : bytes.drop i = b :: (tail ++ rest) := by
        rw [h, hcons]
        rfl
      have hfirst := getElem?_of_drop hbegin
      rw [rootMember_section hkey hseen, hfirst]
      cases shape with
      | other =>
        have hne : some b ≠ some openBrace := by
          intro heq
          obtain ⟨names, hnames⟩ := hbrace.mp (Option.some.inj heq)
          cases hnames
        rw [if_pos hne]
        rfl
      | object names =>
        have hb : b = openBrace := hbrace.mpr ⟨names, rfl⟩
        have hscan := scanObject_eq hn.le htext (hplain hkey names rfl) h key
        rw [if_neg (fun hne => hne (congrArg some hb))]
        by_cases hd : names.Nodup
        · rw [if_pos hd] at hscan
          have hok : scanObjectForDuplicateKeys bytes i key = .ok (names.length, i + text.length) := hscan
          simp only [Bool.false_eq_true, if_false, hd, if_true, hok]
          rfl
        · rw [if_neg hd] at hscan
          obtain ⟨message, herror⟩ := hscan
          simp only [Bool.false_eq_true, if_false, hd, herror]
          exact ⟨message, rfl⟩
  · have hskips : Skips bytes (skipJsonValue bytes maxJsonScanDepth) n := skipJsonValue_eq maxJsonScanDepth n hn
    have hok : skipJsonValue bytes maxJsonScanDepth i = .ok (i + text.length) := hskips htext ws_nil hfollow h
    rw [if_neg hkey, rootMember_other hkey, hok]
    rfl

/-- How the loop over the root goes on behind a member. -/
def rootNext (bytes : Bytes) (fuel : Nat) : Option Nat × RootScan → Scan SectionCounts
  | (none, s) => .ok s.counts
  | (some fin, s) =>
    if bytes[skipWs bytes fin]? = some comma then rootFrom bytes fuel (skipWs bytes fin + 1) s else .ok s.counts

/-- The loop over the root ends with a member, or goes on at an index behind a comma. -/
def RootTurn (r : Scan SectionCounts) (next : RootScan → Scan SectionCounts) (c : UInt8) :
    Option (Bool × RootScan) → Prop
  | none => Failed r
  | some (false, s') => r = .ok s'.counts
  | some (true, s') => r = if c = comma then next s' else .ok s'.counts

/-- One turn of the loop over the root. -/
theorem rootFrom_step {n : Nat} (hn : n < maxJsonScanDepth) (fuel : Nat) (s : RootScan) {i : Nat}
    {before name between before' text after rest : Bytes} {shape : Shape} {c : UInt8} (hbefore : Ws before)
    (hname : Chars name) (hescapes : backslash ∉ name)
    (hplain : IsSection name → ∀ names, shape = .object names → ∀ k ∈ names, backslash ∉ k) (hbetween : Ws between)
    (hbefore' : Ws before') (htext : JsonText.Value n text shape) (hafter : Ws after) (hc : endsScalar c = true)
    (hws : isAsciiWhitespace c = false)
    (h : bytes.drop i =
      before ++ quote :: (name ++ quote :: (between ++ colon :: (before' ++ (text ++ (after ++ c :: rest)))))) :
    ∃ j, i < j ∧ bytes[j]? = some c ∧ bytes.drop (j + 1) = rest ∧
      RootTurn (rootFrom bytes (fuel + 1) i s) (rootFrom bytes fuel (j + 1)) c (memberVerdict name shape s) := by
  obtain ⟨hskip, hquote, hstring, hskip', hcolon, hdrop⟩ := name_to hbefore hname hbetween h
  obtain ⟨b, tail, hcons, hb, -, -⟩ := value_head htext
  have hbegin : bytes.drop (i + before.length + name.length + 2 + between.length + 1) =
      before' ++ b :: (tail ++ (after ++ c :: rest)) := by
    rw [hdrop, hcons]
    rfl
  obtain ⟨hskip'', -, -⟩ := skipWs_to hbegin hbefore' hb
  have hvalue := drop_add hdrop rfl
  obtain ⟨hskip3, hnext, hrest⟩ := skipWs_to (drop_add hvalue rfl) hafter hws
  have hmember := rootMember_eq hn htext (follow_append hafter hc) hplain hvalue s
  have hplain' : ¬ containsEscapes name = true := by simpa [containsEscapes] using hescapes
  have hunfold : rootFrom bytes (fuel + 1) i s =
      (rootMember bytes name (i + before.length + name.length + 2 + between.length + 1 + before'.length) s >>=
        rootNext bytes fuel) := by
    rw [rootFrom]
    simp only [hskip, hquote, not_true_eq_false, if_false, hstring, ne_eq]
    show (if ¬ bytes[skipWs bytes _]? = some colon then _ else _) = _
    rw [hskip', hcolon, if_neg (fun hne => hne rfl), hskip'']
    exact if_neg hplain'
  refine ⟨_, ?_, hnext, hrest, ?_⟩
  · omega
  rw [hunfold]
  revert hmember
  cases memberVerdict name shape s with
  | none =>
    rintro ⟨message, herror⟩
    rw [herror]
    exact ⟨message, rfl⟩
  | some r =>
    obtain ⟨more, s'⟩ := r
    intro hmember
    cases more with
    | false =>
      have hok : rootMember bytes name _ s = .ok (none, s') := hmember
      rw [hok]
      rfl
    | true =>
      have hok : rootMember bytes name _ s = .ok (some _, s') := hmember
      rw [hok]
      show (if bytes[skipWs bytes _]? = some comma then _ else _) = _
      rw [hskip3, hnext]
      simp only [Option.some.injEq]

theorem rootFrom_eq {n : Nat} (hn : n < maxJsonScanDepth) {rest : Bytes} :
    ∀ (fuel i : Nat) (s : RootScan) (text : Bytes) (members : List (Bytes × Shape)), bytes.length - i < fuel →
    Members n text members → Plain members → bytes.drop i = text ++ closeBrace :: rest →
    Answers (rootFrom bytes fuel i s) (verdict members s)
  | 0, _, _, _, _, hfuel, _, _, _ => absurd hfuel (Nat.not_lt_zero _)
  | fuel + 1, i, s, _, _, hfuel, hmembers, hplain, h => by
    cases hmembers with
    | @one _ _ name _ _ _ _ shape hbefore hname hbetween hbefore' htext hafter =>
      simp only [List.append_assoc, List.cons_append] at h
      obtain ⟨hescapes, hinside⟩ := hplain _ List.mem_cons_self
      obtain ⟨j, -, -, -, hstep⟩ := rootFrom_step hn fuel s hbefore hname hescapes hinside hbetween
        hbefore' htext hafter
        (by decide) (by decide) h
      rw [verdict]
      revert hstep
      cases memberVerdict name shape s with
      | none => exact fun hstep => hstep
      | some r =>
        obtain ⟨more, s'⟩ := r
        cases more with
        | false => exact fun hstep => hstep
        | true => exact fun hstep => hstep
    | @cons _ _ name _ _ _ _ _ shape members hbefore hname hbetween hbefore' htext hafter hrest =>
      simp only [List.append_assoc, List.cons_append] at h
      obtain ⟨hescapes, hinside⟩ := hplain _ List.mem_cons_self
      obtain ⟨j, hlt, hcomma, hdrop, hstep⟩ := rootFrom_step hn fuel s hbefore hname hescapes
        hinside hbetween hbefore'
        htext hafter (by decide) (by decide) h
      have hlt' := lt_length_of_some hcomma
      rw [verdict]
      revert hstep
      cases memberVerdict name shape s with
      | none => exact fun hstep => hstep
      | some r =>
        obtain ⟨more, s'⟩ := r
        cases more with
        | false => exact fun hstep => hstep
        | true =>
          intro hstep
          have hgo : rootFrom bytes (fuel + 1) i s = rootFrom bytes fuel (j + 1) s' := hstep
          rw [hgo]
          exact rootFrom_eq hn fuel (j + 1) s' _ members (by omega) hrest
            (fun m hm => hplain m (List.mem_cons_of_mem _ hm)) hdrop

end

def RootScan.start : RootScan := ⟨⟨0, 0⟩, false, false⟩

theorem scan_verdict {n : Nat} (hn : n < maxJsonScanDepth) {text : Bytes} {members : List (Bytes × Shape)}
    (h : ObjectText n text members) (hplain : Plain members) :
    Answers (scanRootSections text) (verdict members .start) := by
  unfold scanRootSections
  cases h with
  | @empty before inside after hbefore hinside hafter =>
    have hbegin : (before ++ openBrace :: (inside ++ closeBrace :: after)).drop 0 =
        before ++ openBrace :: (inside ++ closeBrace :: after) := List.drop_zero
    obtain ⟨hskip, hopen, hdrop⟩ := skipWs_to hbegin hbefore (by decide)
    obtain ⟨hskip', hclose, -⟩ := skipWs_to hdrop hinside (by decide)
    have hne : ¬ (some closeBrace = some quote) := by decide
    simp only [hskip, hopen, ne_eq, not_true_eq_false, if_false]
    show rootFrom _ _ _ _ = _
    rw [rootFrom]
    simp only [hskip', hclose, ne_eq, hne, not_false_eq_true, if_true]
    rfl
  | @members before inside after members hbefore hmembers hafter =>
    have hbegin : (before ++ openBrace :: (inside ++ closeBrace :: after)).drop 0 =
        before ++ openBrace :: (inside ++ closeBrace :: after) := List.drop_zero
    obtain ⟨hskip, hopen, hdrop⟩ := skipWs_to hbegin hbefore (by decide)
    simp only [hskip, hopen, ne_eq, not_true_eq_false, if_false]
    exact rootFrom_eq hn _ _ .start inside members (by omega) hmembers hplain hdrop

/-! ## Clashes -/

def sectionNames (members : List (Bytes × Shape)) : List Bytes := (members.map Prod.fst).filter (IsSection ·)

/-- A section occurs twice, or one that is an object repeats a name. -/
def Clash (members : List (Bytes × Shape)) : Prop :=
  ¬ (sectionNames members).Nodup ∨
    ∃ key names, (key, Shape.object names) ∈ members ∧ IsSection key ∧ ¬ names.Nodup

def scanned : List (Bytes × Shape) → List (Bytes × Shape)
  | [] => []
  | (key, .object names) :: members => (key, .object names) :: scanned members
  | (key, .other) :: members => (key, .other) :: if IsSection key then [] else scanned members

def memberCount (key : Bytes) (members : List (Bytes × Shape)) : Nat :=
  match members.lookup key with
  | some (.object names) => names.length
  | _ => 0

def SectionsAreObjects (members : List (Bytes × Shape)) : Prop :=
  ∀ m ∈ members, IsSection m.1 → m.2 ≠ .other

section
variable {key : Bytes} {shape : Shape} {members : List (Bytes × Shape)} {s : RootScan}

theorem sectionNames_section (hkey : IsSection key) :
    sectionNames ((key, shape) :: members) = key :: sectionNames members := by
  unfold sectionNames
  rw [List.map_cons, List.filter_cons_of_pos (by simpa using hkey)]

theorem sectionNames_other (hkey : ¬ IsSection key) :
    sectionNames ((key, shape) :: members) = sectionNames members := by
  unfold sectionNames
  rw [List.map_cons, List.filter_cons_of_neg (by simpa using hkey)]

theorem isSection_of_mem {k : Bytes} (h : k ∈ sectionNames members) : IsSection k := by
  simpa using (List.mem_filter.mp h).2

theorem clash_section (hkey : IsSection key) :
    Clash ((key, shape) :: members) ↔
      key ∈ sectionNames members ∨ (∃ names, shape = .object names ∧ ¬ names.Nodup) ∨ Clash members := by
  unfold Clash
  rw [sectionNames_section hkey, List.nodup_cons]
  constructor
  · rintro (hdup | ⟨k, names, hmem, hk, hnames⟩)
    · by_cases hmem : key ∈ sectionNames members
      · exact .inl hmem
      · exact .inr (.inr (.inl fun hnodup => hdup ⟨hmem, hnodup⟩))
    · rcases List.mem_cons.mp hmem with heq | hmem
      · obtain ⟨rfl, rfl⟩ := Prod.mk.inj heq
        exact .inr (.inl ⟨names, rfl, hnames⟩)
      · exact .inr (.inr (.inr ⟨k, names, hmem, hk, hnames⟩))
  · rintro (hmem | ⟨names, rfl, hnames⟩ | hdup | ⟨k, names, hmem, hk, hnames⟩)
    · exact .inl fun h => h.1 hmem
    · exact .inr ⟨key, names, List.mem_cons_self, hkey, hnames⟩
    · exact .inl fun h => hdup h.2
    · exact .inr ⟨k, names, List.mem_cons_of_mem _ hmem, hk, hnames⟩

theorem clash_other (hkey : ¬ IsSection key) : Clash ((key, shape) :: members) ↔ Clash members := by
  unfold Clash
  rw [sectionNames_other hkey]
  refine or_congr Iff.rfl ⟨?_, ?_⟩
  · rintro ⟨k, names, hmem, hk, hnames⟩
    rcases List.mem_cons.mp hmem with heq | hmem
    · obtain ⟨rfl, -⟩ := Prod.mk.inj heq
      exact absurd hk hkey
    · exact ⟨k, names, hmem, hk, hnames⟩
  · rintro ⟨k, names, hmem, hk, hnames⟩
    exact ⟨k, names, List.mem_cons_of_mem _ hmem, hk, hnames⟩

theorem not_clash_nil : ¬ Clash [] := by
  rintro (hdup | ⟨k, names, hmem, -, -⟩)
  · exact hdup List.nodup_nil
  · exact absurd hmem List.not_mem_nil

theorem scanned_other (hkey : ¬ IsSection key) :
    scanned ((key, shape) :: members) = (key, shape) :: scanned members := by
  cases shape with
  | object names => rfl
  | other => rw [scanned, if_neg hkey]

theorem seen_record (hkey : IsSection key) {k : Bytes} (hk : IsSection k) (count : Nat) :
    (s.record key count).seen k = true ↔ k = key ∨ s.seen k = true := by
  rcases hkey with rfl | rfl <;> rcases hk with rfl | rfl <;>
    simp [RootScan.record, RootScan.mark, RootScan.seen, sections_differ, sections_differ.symm]

theorem of_record (hkey : IsSection key) {k : Bytes} (hk : IsSection k) (count : Nat) :
    (s.record key count).counts.of k = if k = key then count else s.counts.of k := by
  rcases hkey with rfl | rfl <;> rcases hk with rfl | rfl <;>
    simp [RootScan.record, RootScan.mark, SectionCounts.of, sections_differ, sections_differ.symm]

end

/-- The scan fails on a clash among the members it looks at, or with what it saw before. -/
theorem verdict_none_iff : ∀ (members : List (Bytes × Shape)) (s : RootScan),
    verdict members s = none ↔ Clash (scanned members) ∨ ∃ key ∈ sectionNames (scanned members), s.seen key = true
  | [], s => by
    constructor
    · intro h
      cases h
    · rintro (hclash | ⟨key, hmem, -⟩)
      · exact absurd hclash not_clash_nil
      · exact absurd hmem List.not_mem_nil
  | (key, shape) :: members, s => by
    rw [verdict]
    unfold memberVerdict
    by_cases hkey : IsSection key
    · rw [if_pos hkey]
      cases hseen : s.seen key with
      | true =>
        refine ⟨fun _ => .inr ⟨key, ?_, hseen⟩, fun _ => rfl⟩
        cases shape <;> exact (sectionNames_section hkey).symm ▸ List.mem_cons_self
      | false =>
        cases shape with
        | other =>
          have hscanned : scanned ((key, .other) :: members) = [(key, .other)] := by rw [scanned, if_pos hkey]
          rw [hscanned, clash_section hkey, sectionNames_section hkey]
          constructor
          · intro h
            cases h
          · rintro ((hmem | ⟨names, hnames, -⟩ | hclash) | ⟨k, hmem, hk⟩)
            · exact absurd hmem List.not_mem_nil
            · cases hnames
            · exact absurd hclash not_clash_nil
            · rw [List.mem_singleton.mp hmem, hseen] at hk
              cases hk
        | object names =>
          rw [scanned, clash_section hkey, sectionNames_section hkey]
          by_cases hd : names.Nodup
          · have ih := verdict_none_iff members (s.record key names.length)
            simp only [Bool.false_eq_true, if_false, hd, if_true, ih]
            constructor
            · rintro (hclash | ⟨k, hmem, hk⟩)
              · exact .inl (.inr (.inr hclash))
              · rcases (seen_record hkey (isSection_of_mem hmem) _).mp hk with rfl | hk
                · exact .inl (.inl hmem)
                · exact .inr ⟨k, List.mem_cons_of_mem _ hmem, hk⟩
            · rintro ((hmem | ⟨names', hnames, hd'⟩ | hclash) | ⟨k, hmem, hk⟩)
              · exact .inr ⟨key, hmem, (seen_record hkey hkey _).mpr (.inl rfl)⟩
              · cases hnames
                exact absurd hd hd'
              · exact .inl hclash
              · rcases List.mem_cons.mp hmem with rfl | hmem
                · rw [hseen] at hk
                  cases hk
                · exact .inr ⟨k, hmem, (seen_record hkey (isSection_of_mem hmem) _).mpr (.inr hk)⟩
          · simp only [Bool.false_eq_true, if_false, hd]
            exact ⟨fun _ => .inl (.inr (.inl ⟨names, rfl, hd⟩)), fun _ => trivial⟩
    · rw [if_neg hkey, scanned_other hkey, clash_other hkey, sectionNames_other hkey]
      exact verdict_none_iff members s

/-- Where every section is an object the scan counts what it has not seen before. -/
theorem verdict_counts {key : Bytes} (hkey : IsSection key) : ∀ (members : List (Bytes × Shape)) (s : RootScan)
    (counts : SectionCounts), SectionsAreObjects members → verdict members s = some counts →
    counts.of key = if s.seen key then s.counts.of key else
      match members.lookup key with
      | some (.object names) => names.length
      | _ => s.counts.of key
  | [], s, counts, _, h => by
    obtain rfl : s.counts = counts := Option.some.inj h
    simp
  | (k, shape) :: members, s, counts, hobjects, h => by
    have hobjects' : SectionsAreObjects members := fun m hm => hobjects m (List.mem_cons_of_mem _ hm)
    rw [verdict] at h
    unfold memberVerdict at h
    by_cases hk : IsSection k
    · rw [if_pos hk] at h
      cases hseen : s.seen k with
      | true =>
        rw [hseen] at h
        cases h
      | false =>
        cases shape with
        | other => exact absurd rfl (hobjects _ List.mem_cons_self hk)
        | object names =>
          rw [hseen] at h
          by_cases hd : names.Nodup
          · simp only [Bool.false_eq_true, if_false, hd, if_true] at h
            have ih := verdict_counts hkey members _ counts hobjects' h
            have hiff := @seen_record k s hk key hkey names.length
            have hof := @of_record k s hk key hkey names.length
            by_cases heq : key = k
            · subst heq
              rw [if_pos (hiff.mpr (.inl rfl)), hof, if_pos rfl] at ih
              rw [hseen, List.lookup_cons_self]
              exact ih
            · have hseen' : (s.record k names.length).seen key = s.seen key := by
                rw [Bool.eq_iff_iff, hiff]
                exact ⟨fun h => h.resolve_left heq, .inr⟩
              rw [hseen', hof, if_neg heq] at ih
              rw [List.lookup_cons, beq_false_of_ne heq]
              exact ih
          · simp only [Bool.false_eq_true, if_false, hd] at h
            cases h
    · have heq : key ≠ k := by
        rintro rfl
        exact hk hkey
      rw [if_neg hk] at h
      rw [List.lookup_cons, beq_false_of_ne heq]
      exact verdict_counts hkey members s counts hobjects' h

theorem Clash.mono {members members' : List (Bytes × Shape)} (hsub : members.Sublist members') (h : Clash members) :
    Clash members' := by
  rcases h with hdup | ⟨key, names, hmem, hkey, hnames⟩
  · exact .inl fun hnodup => hdup (hnodup.sublist ((hsub.map Prod.fst).filter _))
  · exact .inr ⟨key, names, hsub.subset hmem, hkey, hnames⟩

theorem scanned_sublist : ∀ members : List (Bytes × Shape), (scanned members).Sublist members
  | [] => List.Sublist.refl []
  | (key, .object names) :: members => (scanned_sublist members).cons_cons _
  | (key, .other) :: members => by
    rw [scanned]
    split
    · exact (List.nil_sublist members).cons_cons _
    · exact (scanned_sublist members).cons_cons _

/-- The scan of a byte string ends. On the text of an object it fails just where a section
occurs twice or repeats a name, and counts the members of the sections otherwise, exactly
where a clash in the text is one among the members up to the first section that is no
object. -/
theorem scan_agrees_iff (text : Bytes) :
    Ends (fun _ => True) (scanRootSections text) ∧
      ∀ n < maxJsonScanDepth, ∀ members, ObjectText n text members → Plain members →
        ((Failed (scanRootSections text) ↔ Clash members) ∧
            (¬ Clash members → SectionsAreObjects members →
              scanRootSections text =
                .ok ⟨memberCount sectionVerifyKeys members, memberCount sectionOldVerifyKeys members⟩) ↔
          (Clash members → Clash (scanned members))) := by
  refine ⟨scanRootSections_ends text, fun n hn members htext hplain => ?_⟩
  have hanswers := scan_verdict hn htext hplain
  have hnone : verdict members .start = none ↔ Clash (scanned members) := by
    rw [verdict_none_iff]
    refine or_iff_left ?_
    rintro ⟨key, -, hseen⟩
    unfold RootScan.seen at hseen
    split at hseen <;> cases hseen
  have hfailed : Failed (scanRootSections text) ↔ Clash (scanned members) := by
    rw [← hnone]
    cases hverdict : verdict members .start with
    | none =>
      rw [hverdict] at hanswers
      exact ⟨fun _ => rfl, fun _ => hanswers⟩
    | some counts =>
      rw [hverdict] at hanswers
      constructor
      · rintro ⟨message, herror⟩
        cases herror.symm.trans hanswers
      · intro h
        cases h
  constructor
  · exact fun h hclash => hfailed.mp (h.1.mpr hclash)
  · intro h
    refine ⟨hfailed.trans ⟨Clash.mono (scanned_sublist members), h⟩, fun hclash hobjects => ?_⟩
    cases hverdict : verdict members .start with
    | none => exact absurd ((hnone.mp hverdict).mono (scanned_sublist members)) hclash
    | some counts =>
      rw [hverdict] at hanswers
      have hcount : ∀ key, IsSection key → counts.of key = memberCount key members := by
        intro key hkey
        have hseen : RootScan.start.seen key = false := by
          unfold RootScan.seen
          split <;> rfl
        have hzero : RootScan.start.counts.of key = 0 := by
          unfold SectionCounts.of
          split <;> rfl
        rw [verdict_counts hkey members .start counts hobjects hverdict, hseen, hzero]
        rfl
      have hok : scanRootSections text = .ok counts := hanswers
      have hverify := hcount sectionVerifyKeys (.inl rfl)
      have hold := hcount sectionOldVerifyKeys (.inr rfl)
      rw [hok, ← hverify, ← hold]
      rfl

/-! ## A section behind one that is no object -/

theorem chars_section : Chars sectionVerifyKeys := .of_plain (by decide +kernel)

theorem escapes_section : backslash ∉ sectionVerifyKeys := by decide

/-- `{"verify_keys":{"a":5}}`. -/
def oneKey : Bytes := utf8 "\x7b\"verify_keys\":\x7b\"a\":5\x7d\x7d"

theorem value_five (n : Nat) : JsonText.Value n (utf8 "5") .other := by
  refine .number ⟨[], utf8 "5", [], [], by decide, .inl rfl, ⟨⟨by decide, ?_⟩, by decide⟩,
    .inl rfl, .inl rfl⟩
  unfold JsonText.IsDigit
  decide +kernel

theorem value_oneName : JsonText.Value 1 (utf8 "\x7b\"a\":5\x7d") (.object [utf8 "a"]) := by
  have hname : Chars (utf8 "a") := .of_plain (by decide +kernel)
  have hmembers := JsonText.Members.one ws_nil hname ws_nil ws_nil (value_five 0) ws_nil
  exact JsonText.Value.object hmembers

theorem oneKey_text : ObjectText 1 oneKey [(sectionVerifyKeys, .object [utf8 "a"])] :=
  ObjectText.members ws_nil (.one ws_nil chars_section ws_nil ws_nil value_oneName ws_nil) ws_nil

/-- `{"verify_keys":5,"verify_keys":{}}`. -/
def hiddenSection : Bytes := utf8 "\x7b\"verify_keys\":5,\"verify_keys\":\x7b\x7d\x7d"

def hiddenMembers : List (Bytes × Shape) := [(sectionVerifyKeys, .other), (sectionVerifyKeys, .object [])]

theorem hiddenSection_text : ObjectText 1 hiddenSection hiddenMembers :=
  ObjectText.members ws_nil (.cons ws_nil chars_section ws_nil ws_nil (value_five 1) ws_nil
    (.one ws_nil chars_section ws_nil ws_nil (.emptyObject ws_nil) ws_nil)) ws_nil

theorem oneKey_counted :
    Ends (fun _ => True) (scanRootSections oneKey) ∧ scanRootSections oneKey = .ok ⟨1, 0⟩ := by
  have hscanned : scanned [(sectionVerifyKeys, .object [utf8 "a"])] = [(sectionVerifyKeys, .object [utf8 "a"])] :=
    rfl
  have hplain : Plain [(sectionVerifyKeys, .object [utf8 "a"])] := by
    intro m hm
    rw [List.mem_singleton.mp hm]
    refine ⟨escapes_section, fun _ names hnames name hname => ?_⟩
    cases hnames
    rw [List.mem_singleton.mp hname]
    decide
  have hclash : ¬ Clash [(sectionVerifyKeys, .object [utf8 "a"])] := by
    rw [clash_section (.inl rfl)]
    rintro (hmem | ⟨names, hnames, hd⟩ | hclash)
    · exact absurd hmem List.not_mem_nil
    · cases hnames
      exact hd (List.nodup_singleton _)
    · exact not_clash_nil hclash
  have hobjects : SectionsAreObjects [(sectionVerifyKeys, .object [utf8 "a"])] := by
    intro m hm _
    rw [List.mem_singleton.mp hm]
    exact Shape.noConfusion
  refine ⟨(scan_agrees_iff oneKey).1, ?_⟩
  exact (((scan_agrees_iff oneKey).2 1 (by decide) _ oneKey_text hplain).mpr (fun h => hscanned ▸ h)).2
    hclash hobjects

/-- The second section is not noticed. -/
theorem hiddenSection_accepted :
    ObjectText 1 hiddenSection hiddenMembers ∧ Plain hiddenMembers ∧ Clash hiddenMembers ∧
      scanRootSections hiddenSection = .ok ⟨0, 0⟩ ∧ ¬ Failed (scanRootSections hiddenSection) := by
  have hok : scanRootSections hiddenSection = .ok ⟨0, 0⟩ := by decide
  refine ⟨hiddenSection_text, fun m hm => ?_, .inl (by decide), hok, ?_⟩
  · have hname : m.1 = sectionVerifyKeys ∧ ∀ names, m.2 = .object names → names = [] := by
      rcases List.mem_cons.mp hm with rfl | hm
      · exact ⟨rfl, fun names h => by cases h⟩
      · rw [List.mem_singleton.mp hm]
        exact ⟨rfl, fun names h => by cases h; rfl⟩
    refine ⟨hname.1 ▸ escapes_section, fun _ names hnames name hmem => ?_⟩
    rw [hname.2 names hnames] at hmem
    cases hmem
  · rintro ⟨message, herror⟩
    rw [hok] at herror
    cases herror

end Congruent.KeyScan
