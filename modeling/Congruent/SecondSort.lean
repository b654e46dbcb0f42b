import Congruent.SenderLevel

/-!
# A second sort on the same tables

Version 2.1 sorts control events on the tables that its first sort leaves. Without ruling
power levels their lookups look past every power-levels event that the first sort parsed
and take the last one of them.
-/

namespace Congruent

section
variable (c : Codec) (store : EventStore)

/-- The power-levels event that a search takes when those of `parsed` are parsed. -/
def lastParsed (parsed : EventId → Bool) (ev : Pdu) : Option Pdu :=
  ((lookedAt store parsed ev.authEvents false false).filter parsed).getLast?.bind store.fetch

/-- Parsed are just the power-levels events that rule events of a sort. -/
def ParsesRulings (sorted : EventId → Prop) (parsed : EventId → Bool) : Prop :=
  ∀ id, parsed id = true ↔ ∃ pl, Rules store sorted pl ∧ pl.eventId = id

/-- Events of one sender that take one power-levels event in a second sort agree on the
creator's privilege, unless the first sort memoised the sender's level there. -/
def SettledAgain (sorted resorted : EventId → Prop) : Prop :=
  ∀ parsed, ParsesRulings store sorted parsed → ∀ x y ev ev' pl, resorted x → resorted y →
    store.fetch x = some ev → store.fetch y = some ev' → isTypeAndKey ev .roomCreate "" = false →
    isTypeAndKey ev' .roomCreate "" = false → lastParsed store parsed ev = some pl →
    lastParsed store parsed ev' = some pl → ev.sender = ev'.sender →
    (∃ z first, sorted z ∧ store.fetch z = some first ∧ RuledBy store first pl ∧ first.sender = ev.sender) ∨
      createPrivileges c (firstCreate store ev.authEvents) ev.sender =
        createPrivileges c (firstCreate store ev'.authEvents) ev.sender

/-- The level a lookup of the second sort answers, by what the first one memoised. -/
def levelAgain (memo : UserId × EventId → Option Int) (parsed : EventId → Bool) (id : EventId) : Int :=
  match store.fetch id with
  | none => 0
  | some ev =>
    if isTypeAndKey ev .roomCreate "" then intMax
    else
      match lastParsed store parsed ev, firstCreate store ev.authEvents with
      | some pl, creator => (memo (ev.sender, pl.eventId)).getD (levelUnder c creator pl ev.sender)
      | none, some creator => if isRoomCreator c creator ev.sender then intMax else 0
      | none, none => 0

/-- The tables in a second sort: nothing more is parsed, and new levels are those of its events. -/
structure CachesAgain (resorted : EventId → Prop) (parsed : EventId → Bool) (s₀ s : PlCaches) : Prop where
  same : s.parsed = s₀.parsed
  kept : ∀ {key level}, s₀.sender.lookup key = some level → s.sender.lookup key = some level
  added : ∀ {user id level}, s.sender.lookup (user, id) = some level → s₀.sender.lookup (user, id) = none →
    ∃ x ev pl, resorted x ∧ store.fetch x = some ev ∧ isTypeAndKey ev .roomCreate "" = false ∧
      lastParsed store parsed ev = some pl ∧ ev.sender = user ∧ pl.eventId = id ∧
      level = levelUnder c (firstCreate store ev.authEvents) pl user

end

section
variable {c : Codec} {store : EventStore} {sorted resorted : EventId → Prop} {parsed : EventId → Bool}
  {s₀ s : PlCaches}

/-! ## What the first sort leaves -/

theorem CachesFull.parsed_iff (h : CachesFull c store sorted s₀) (id : EventId) :
    (s₀.parsed.lookup id).isSome = true ↔ ∃ pl, Rules store sorted pl ∧ pl.eventId = id := by
  constructor
  · intro hid
    obtain ⟨fields, hl⟩ := Option.isSome_iff_exists.mp hid
    obtain ⟨pl, hf, hr, -⟩ := h.sound.parsed hl
    exact ⟨pl, hr, EventStore.eventId_of_fetch hf⟩
  · rintro ⟨pl, ⟨x, ev, hx, hf, hr⟩, rfl⟩
    exact (h.entries x hx ev pl hf hr).1

theorem CachesFull.sender_of_ruled (hset : LevelsSettled c store sorted) (h : CachesFull c store sorted s₀)
    {x : EventId} {ev pl : Pdu} (hx : sorted x) (hf : store.fetch x = some ev) (hr : RuledBy store ev pl) :
    s₀.sender.lookup (ev.sender, pl.eventId) =
      some (levelUnder c (firstCreate store ev.authEvents) pl ev.sender) := by
  obtain ⟨level, hl⟩ := Option.isSome_iff_exists.mp (h.entries x hx ev pl hf hr).2
  rw [hl, memoised_level hr (fun y ev' hy hf' hr' hs => ?_) h.sound hl]
  exact (hset.privilege hx hy hf hf' hr hr' hs.symm).symm

theorem CachesFull.sender_eq (hset : LevelsSettled c store sorted) {s₀' : PlCaches}
    (h : CachesFull c store sorted s₀) (h' : CachesFull c store sorted s₀') :
    s₀.sender.lookup = s₀'.sender.lookup := by
  have hle : ∀ {s s' : PlCaches}, CachesFull c store sorted s → CachesFull c store sorted s' → ∀ {key level},
      s.sender.lookup key = some level → s'.sender.lookup key = some level := by
    intro s s' hs hs' key level hl
    obtain ⟨x, ev, pl, hx, hf, hr, hsender, hid, rfl⟩ := hs.sound.sender hl
    have hkey : key = (ev.sender, pl.eventId) := Prod.ext hsender.symm hid.symm
    subst hkey
    exact hs'.sender_of_ruled hset hx hf hr
  exact funext fun key => Option.ext fun level => ⟨hle h h', hle h' h⟩

/-! ## One lookup -/

theorem lastParsed_some {ev pl : Pdu} (h : lastParsed store parsed ev = some pl) :
    parsed pl.eventId = true ∧ store.fetch pl.eventId = some pl := by
  obtain ⟨id, hlast, hf⟩ := Option.bind_eq_some_iff.mp h
  rw [EventStore.eventId_of_fetch hf]
  exact ⟨(List.mem_filter.mp (List.mem_of_getLast? hlast)).2, hf⟩

/-- While nothing more is parsed, the scan finds the first create event and the last of the
parsed events that it looks at. -/
theorem scanAuthEvents_again {A : Type} {I : PlCaches → Prop} {Q : A → PlCaches → Prop}
    {k : Option Pdu × Option Pdu → Prog PlCaches A} {found : Option Pdu × Option Pdu}
    (hI : ∀ s, I s → ∀ id, (s.parsed.lookup id).isSome = parsed id)
    (hparsed : ∀ id, parsed id = true → ∃ q, store.fetch id = some q ∧ isTypeAndKey q .roomPowerLevels "" = true)
    (hk : ∀ s, I s → Prog.Safe I (fun _ _ => True) Q (k found) s) :
    ∀ (aids : List EventId) (creator pl : Option Pdu) (s : PlCaches),
    (pl = none → ∀ q, firstPowerLevels store aids = some q → parsed q.eventId = true) →
    found = (creator.or (firstCreate store aids),
      (((lookedAt store parsed aids creator.isSome pl.isSome).filter parsed).getLast?.bind store.fetch).or pl) →
    Prog.Safe I (fun _ _ => True) Q (scanAuthEvents store aids creator pl >>= k) s
  | [], creator, pl, s, _, hfound => by
    have hfound : found = (creator, pl) := by simpa [firstCreate, lookedAt] using hfound
    subst hfound
    exact Prog.Guarded.of_forall (fun _ => trivial) fun s' _ hs' => hk s' hs'
  | aid :: aids, creator, pl, s, hfirst, hfound => by
    unfold scanAuthEvents
    rw [bind_assoc]
    unfold lookedAt at hfound
    refine Prog.Guarded.read (fun _ => trivial) fun s' _ hs' => ?_
    rw [hI s' hs' aid]
    by_cases hp : parsed aid = true
    · obtain ⟨q, hf, hq⟩ := hparsed aid hp
      have hcr : firstCreate store (aid :: aids) = firstCreate store aids := by
        simp [firstCreate_cons, Option.filter, hf, powerLevels_ne_create hq]
      simp only [hp, if_true, hf, Option.some_or]
      refine scanAuthEvents_again hI hparsed hk aids creator (some q) s' (fun h => by cases h) ?_
      rw [hfound, hcr, if_pos hp, List.filter_cons_of_pos hp, List.getLast?_cons, Option.isSome_some]
      refine Prod.ext rfl ?_
      cases hlast : ((lookedAt store parsed aids creator.isSome true).filter parsed).getLast? with
      | none => simp [hf]
      | some id =>
        obtain ⟨q', hf', -⟩ := hparsed id (List.mem_filter.mp (List.mem_of_getLast? hlast)).2
        simp [hf']
    · have hnote := @noteAuthEvent_eq store aid aids creator pl
      obtain ⟨hc, hl⟩ := noteAuthEvent_found (store.fetch aid) creator pl
      -- an event that is not parsed is not the first power-levels event
      have hpl : (noteAuthEvent (store.fetch aid) creator pl).2 = pl := by
        cases pl with
        | some p => cases hf : store.fetch aid <;> simp [noteAuthEvent, apply_ite Prod.snd]
        | none =>
          cases hf : store.fetch aid with
          | none => rfl
          | some aev =>
            have hnot : isTypeAndKey aev .roomPowerLevels "" = false := by
              by_contra hq
              have hq : isTypeAndKey aev .roomPowerLevels "" = true := by simpa using hq
              refine hp ?_
              rw [← EventStore.eventId_of_fetch hf]
              exact hfirst rfl aev (by simp [firstPowerLevels_cons, hf, Option.filter, hq])
            simp [noteAuthEvent, hnot, apply_ite Prod.snd]
      have hp : parsed aid = false := by simpa using hp
      rw [hp, if_neg Bool.false_ne_true, List.filter_cons_of_neg (by simp [hp]), ← hc, ← hl] at hfound
      simp only [hp, Bool.false_eq_true, if_false]
      rw [hpl] at hnote hfound ⊢
      have hcr : (noteAuthEvent (store.fetch aid) creator pl).1.or (firstCreate store aids) =
          creator.or (firstCreate store (aid :: aids)) := congrArg Prod.fst hnote
      split
      · rename_i hboth
        rw [if_pos hboth] at hfound
        obtain ⟨cr, hcr'⟩ := Option.isSome_iff_exists.mp (Bool.and_eq_true_iff.mp hboth).1
        have hret : found = noteAuthEvent (store.fetch aid) creator pl := by
          rw [hfound, ← hcr]
          refine Prod.ext ?_ ?_
          · simp [hcr']
          · simp [hpl]
        rw [← hret]
        exact Prog.Guarded.of_forall (fun _ => trivial) fun s'' _ hs'' => hk s'' hs''
      · rename_i hboth
        rw [if_neg hboth, ← hcr] at hfound
        refine scanAuthEvents_again hI hparsed hk aids _ pl s' (fun hnone q hq => ?_) hfound
        subst hnone
        exact hfirst rfl q ((congrArg Prod.snd hnote).symm.trans hq)

/-- Under any interleaving a lookup of the second sort answers one level. -/
theorem getPowerLevelForSender_again (hfull : CachesFull c store sorted s₀)
    (hset : LevelsSettled c store sorted) (hagain : SettledAgain c store sorted resorted)
    (hparsed : ParsesRulings store sorted parsed) (hsub : ∀ x, resorted x → sorted x)
    {x : EventId} (hx : resorted x)
    (s : PlCaches) :
    Prog.Safe (CachesAgain c store resorted parsed s₀) (fun _ _ => True)
      (fun level _ => level = levelAgain c store s₀.sender.lookup parsed x)
      (getPowerLevelForSender c store none x) s := by
  unfold getPowerLevelForSender
  cases hf : store.fetch x with
  | none => exact fun _ _ _ => by simp [levelAgain, hf]
  | some ev =>
  simp only
  split
  · rename_i hc
    exact fun _ _ _ => by simp [levelAgain, hf, hc]
  rename_i hc
  have hc : isTypeAndKey ev .roomCreate "" = false := by simpa using hc
  have hdom : ∀ s, CachesAgain c store resorted parsed s₀ s → ∀ id, (s.parsed.lookup id).isSome = parsed id :=
    fun s hs id => Bool.eq_iff_iff.mpr (by rw [hs.same, hfull.parsed_iff, hparsed])
  have hrules : ∀ id, parsed id = true →
      ∃ q, store.fetch id = some q ∧ isTypeAndKey q .roomPowerLevels "" = true := by
    intro id hid
    obtain ⟨pl, hr, rfl⟩ := (hparsed id).mp hid
    exact ⟨pl, hr.fetch⟩
  refine scanAuthEvents_again hdom hrules (fun s₁ hs₁ => ?_) ev.authEvents none none s
    (fun _ q hq => (hparsed _).mpr ⟨q, ⟨x, ev, hsub x hx, hf, hc, hq⟩, rfl⟩) rfl
  have hlast : (((lookedAt store parsed ev.authEvents false false).filter parsed).getLast?.bind store.fetch) =
      lastParsed store parsed ev := rfl
  simp only [Option.none_or, Option.or_none, Option.isSome_none, hlast]
  cases hpl : lastParsed store parsed ev with
  | none =>
    cases hcr : firstCreate store ev.authEvents with
    | none => exact fun _ _ _ => by simp [levelAgain, hf, hc, hpl, hcr]
    | some creator => exact fun _ _ _ => by simp [levelAgain, hf, hc, hpl, hcr]
  | some pl =>
    have hlevel : levelAgain c store s₀.sender.lookup parsed x = (s₀.sender.lookup (ev.sender, pl.eventId)).getD
        (levelUnder c (firstCreate store ev.authEvents) pl ev.sender) := by
      simp [levelAgain, hf, hc, hpl]
    obtain ⟨hp, hfpl⟩ := lastParsed_some hpl
    simp only [hlevel]
    refine Prog.Guarded.act fun s₂ _ hs₂ => ?_
    obtain ⟨fields, hfields⟩ := Option.isSome_iff_exists.mp ((hdom s₂ hs₂ _).trans hp)
    have hsame : s₂.parsedOrInsert pl.eventId (parsedFields c pl) = (parsedFields c pl, s₂) := by
      obtain ⟨pl', hf', -, rfl⟩ := hfull.sound.parsed (hs₂.same ▸ hfields)
      cases hfpl.symm.trans hf'
      unfold PlCaches.parsedOrInsert
      rw [hfields]
    rw [hsame]
    refine ⟨hs₂, trivial, Prog.Guarded.read (fun _ => trivial) fun s₃ _ hs₃ => ?_⟩
    split
    · rename_i level hl
      intro _ _ _
      cases h₀ : s₀.sender.lookup (ev.sender, pl.eventId) with
      | some level₀ =>
        rw [hs₃.kept h₀] at hl
        cases hl
        rfl
      | none =>
        obtain ⟨y, ev', pl', hy, hf', hc', hpl', hsender, hid, rfl⟩ := hs₃.added hl h₀
        obtain rfl : pl' = pl := by
          have := (lastParsed_some hpl').2
          rw [hid, hfpl] at this
          exact (Option.some.inj this).symm
        rcases hagain parsed hparsed x y ev ev' pl' hx hy hf hf' hc hc' hpl hpl' hsender.symm with
          ⟨z, first, hz, hfz, hr, hs⟩ | hpriv
        · have := hfull.sender_of_ruled hset hz hfz hr
          rw [hs, h₀] at this
          cases this
        · rw [Option.getD_none, levelUnder, levelUnder, hpriv]
    · rename_i hl
      have h₀ : s₀.sender.lookup (ev.sender, pl.eventId) = none := by
        cases h₀ : s₀.sender.lookup (ev.sender, pl.eventId) with
        | none => rfl
        | some level => exact absurd (hs₃.kept h₀) (by simp [hl])
      refine Prog.Guarded.act fun s₄ _ hs₄ => ⟨⟨hs₄.same, ?_, ?_⟩, trivial, fun _ _ _ => by rw [h₀]; rfl⟩
      · intro key level hkey
        have hne : key ≠ (ev.sender, pl.eventId) := by
          rintro rfl
          rw [h₀] at hkey
          cases hkey
        exact (AList.lookup_insert_ne hne).trans (hs₄.kept hkey)
      · intro user id level hlook hnone
        by_cases hk : (user, id) = (ev.sender, pl.eventId)
        · cases hk
          rw [PlCaches.insertSender, AList.lookup_insert] at hlook
          cases hlook
          exact ⟨x, ev, pl, hx, hf, hc, hpl, rfl, rfl, rfl⟩
        · rw [PlCaches.insertSender, AList.lookup_insert_ne hk] at hlook
          exact hs₄.added hlook hnone

theorem runAll_again (hfull : CachesFull c store sorted s₀) (hset : LevelsSettled c store sorted)
    (hagain : SettledAgain c store sorted resorted) (hparsed : ParsesRulings store sorted parsed)
    (hsub : ∀ x, resorted x → sorted x) {ids : List EventId} (hids : ∀ x ∈ ids, resorted x) (schedule : List Nat) :
    (Prog.runAll schedule (ids.map (getPowerLevelForSender c store none)) s₀).1 =
      ids.map (levelAgain c store s₀.sender.lookup parsed) := by
  have hstart : CachesAgain c store resorted parsed s₀ s₀ := ⟨rfl, id, fun hl hn => by rw [hn] at hl; cases hl⟩
  have hpool : Prog.PoolSafe (CachesAgain c store resorted parsed s₀) (fun _ _ => True)
      (fun x level _ => level = levelAgain c store s₀.sender.lookup parsed x) ids
      (ids.map (getPowerLevelForSender c store none)) s₀ := by
    refine List.forall₂_map_right_iff.mpr (List.forall₂_same.mpr fun x hx => ?_)
    exact getPowerLevelForSender_again hfull hset hagain hparsed hsub (hids x hx) s₀
  obtain ⟨-, hf⟩ := Prog.runAll_safe (fun _ => trivial) (fun _ _ _ _ _ => trivial) schedule hstart hpool
  exact eq_map_of_forall₂ hf fun _ _ h => h

end

end Congruent
