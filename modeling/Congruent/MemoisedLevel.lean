import Mathlib.Data.List.Induction
import Congruent.SenderLevel

/-!
# Lookups one after another

Each lookup leaves what it parsed and the level it answered for the next ones. A lookup
answers its event's own level as long as it does not look at a power-levels event, other
than the one that rules its event, that an earlier lookup parsed, and the earlier events of
its sender under its power-levels event agree with its own on the creator's privilege.
-/

namespace Congruent

/-- A call of `get_power_level_for_sender`. -/
structure LevelCall where
  context : Option PowerLevelsContentFields
  id : EventId

section
variable (c : Codec) (store : EventStore)

def LevelCall.prog (call : LevelCall) : Prog PlCaches Int := getPowerLevelForSender c store call.context call.id

def cachesAfter (calls : List LevelCall) : PlCaches :=
  calls.foldl (fun s call => ((call.prog c store).run s).2) .empty

def LevelCall.event (call : LevelCall) : Option Pdu :=
  if call.context.isSome then none else (store.fetch call.id).filter fun ev => !isTypeAndKey ev .roomCreate ""

def LevelCall.ruling (call : LevelCall) : Option Pdu :=
  (call.event store).bind fun ev => firstPowerLevels store ev.authEvents

def parsedBy (calls : List LevelCall) : List EventId :=
  calls.filterMap fun call => (call.ruling store).map (·.eventId)

/-- Nothing that earlier calls left concerns another context than the call's own. -/
structure Clear (earlier : List LevelCall) (call : LevelCall) : Prop where
  one : ∀ ev ∈ call.event store, ∀ aid ∈ lookedAt store (· ∈ parsedBy store earlier) ev.authEvents false false,
    aid ∈ parsedBy store earlier → ∃ pl, firstPowerLevels store ev.authEvents = some pl ∧ pl.eventId = aid
  privilege : ∀ ev ∈ call.event store, ∀ pl ∈ call.ruling store, ∀ other ∈ earlier, ∀ ev' ∈ other.event store,
    other.ruling store = some pl → ev'.sender = ev.sender →
    createPrivileges c (firstCreate store ev'.authEvents) ev.sender =
      createPrivileges c (firstCreate store ev.authEvents) ev.sender

def SearchedBy (calls : List LevelCall) (x : EventId) : Prop := ⟨none, x⟩ ∈ calls

end

section
variable {c : Codec} {store : EventStore}

theorem LevelCall.event_iff {call : LevelCall} {ev : Pdu} :
    call.event store = some ev ↔
      call.context = none ∧ store.fetch call.id = some ev ∧ isTypeAndKey ev .roomCreate "" = false := by
  unfold LevelCall.event
  cases call.context <;> simp [Option.filter_eq_some_iff]

theorem LevelCall.ruling_iff {call : LevelCall} {pl : Pdu} :
    call.ruling store = some pl ↔ ∃ ev, call.event store = some ev ∧ RuledBy store ev pl := by
  unfold LevelCall.ruling RuledBy
  rw [Option.bind_eq_some_iff]
  refine exists_congr fun ev => and_congr_right fun h => ?_
  simp [(event_iff.mp h).2.2]

theorem CachesSound.mono {sorted sorted' : EventId → Prop} (h : ∀ x, sorted x → sorted' x) {s : PlCaches}
    (hs : CachesSound c store sorted s) : CachesSound c store sorted' s where
  parsed hl := by
    obtain ⟨pl, hf, ⟨x, ev, hx, hr⟩, he⟩ := hs.parsed hl
    exact ⟨pl, hf, ⟨x, ev, h x hx, hr⟩, he⟩
  sender hl := by
    obtain ⟨x, ev, pl, hx, hrest⟩ := hs.sender hl
    exact ⟨x, ev, pl, h x hx, hrest⟩

/-- A scan that looks at no parsed event but the one it is for finds the first create event
and the first power-levels event. -/
theorem scanAuthEvents_run (s : PlCaches) : ∀ (aids : List EventId) (creator pl : Option Pdu),
    (∀ aid ∈ lookedAt store (fun id => (s.parsed.lookup id).isSome) aids creator.isSome pl.isSome,
      (s.parsed.lookup aid).isSome = true → ∃ q, store.fetch aid = some q ∧
        isTypeAndKey q .roomPowerLevels "" = true ∧ pl.or (firstPowerLevels store aids) = some q) →
    (scanAuthEvents store aids creator pl).run s =
      ((creator.or (firstCreate store aids), pl.or (firstPowerLevels store aids)), s)
  | [], creator, pl, _ => by simp [scanAuthEvents, firstCreate, firstPowerLevels]
  | aid :: aids, creator, pl, h => by
    unfold scanAuthEvents
    unfold lookedAt at h
    rw [Prog.run_read_bind]
    by_cases hcached : (s.parsed.lookup aid).isSome = true
    · -- the id is parsed, so it is the power-levels event that the scan is for
      simp only [hcached, if_true, List.mem_cons, forall_eq_or_imp, forall_const] at h ⊢
      obtain ⟨⟨q, hf, hq, hpl⟩, h⟩ := h
      have hcr : firstCreate store (aid :: aids) = firstCreate store aids := by
        simp [firstCreate_cons, Option.filter, hf, powerLevels_ne_create hq]
      rw [hf, hpl, hcr, Option.some_or, scanAuthEvents_run s aids creator (some q), Option.some_or]
      intro aid' hmem hcached'
      obtain ⟨q', hf', hq', hpl'⟩ := h aid' hmem hcached'
      exact ⟨q', hf', hq', by rw [Option.some_or, ← hpl, hpl']⟩
    · simp only [hcached, Bool.false_eq_true, if_false] at h ⊢
      have hnote := @noteAuthEvent_eq store aid aids creator pl
      obtain ⟨hc, hp⟩ := noteAuthEvent_found (store.fetch aid) creator pl
      rw [← hc, ← hp] at h
      rw [← hnote]
      split
      · rename_i hboth
        simp only [Bool.and_eq_true, Option.isSome_iff_exists] at hboth
        obtain ⟨⟨cr, hcr⟩, ⟨p, hp⟩⟩ := hboth
        simp only [hcr, hp, Option.some_or, Prog.run_ret]
        rw [← hcr, ← hp]
      · rename_i hboth
        rw [if_neg hboth] at h
        refine scanAuthEvents_run s aids _ _ fun aid' hmem hcached' => ?_
        obtain ⟨q, hf, hq, hpl⟩ := h aid' (List.mem_cons_of_mem _ hmem) hcached'
        exact ⟨q, hf, hq, (congrArg Prod.snd hnote).trans hpl⟩

structure CachesAfter (c : Codec) (store : EventStore) (calls : List LevelCall) (s : PlCaches) : Prop where
  sound : CachesSound c store (SearchedBy calls) s
  parsed : ∀ id ∈ parsedBy store calls, (s.parsed.lookup id).isSome = true

variable {earlier : List LevelCall} {call : LevelCall} {s : PlCaches}

theorem CachesAfter.parsed_iff (h : CachesAfter c store earlier s) (id : EventId) :
    (s.parsed.lookup id).isSome = true ↔ id ∈ parsedBy store earlier := by
  refine ⟨fun hid => ?_, h.parsed id⟩
  obtain ⟨fields, hl⟩ := Option.isSome_iff_exists.mp hid
  obtain ⟨pl, hf, ⟨x, ev, hx, hfx, hr⟩, -⟩ := h.sound.parsed hl
  have hruling : LevelCall.ruling store ⟨none, x⟩ = some pl :=
    LevelCall.ruling_iff.mpr ⟨ev, LevelCall.event_iff.mpr ⟨rfl, hfx, hr.1⟩, hr⟩
  refine List.mem_filterMap.mpr ⟨⟨none, x⟩, hx, ?_⟩
  rw [hruling, Option.map_some, EventStore.eventId_of_fetch hf]

theorem CachesAfter.keep (h : CachesAfter c store earlier s) (call : LevelCall)
    (hnone : call.ruling store = none) : CachesAfter c store (earlier ++ [call]) s where
  sound := h.sound.mono fun _ hx => List.mem_append_left _ hx
  parsed := by simpa [parsedBy, hnone] using h.parsed

theorem CachesAfter.parsedOrInsert (h : CachesAfter c store earlier s) {id : EventId} {ev pl : Pdu}
    (hf : store.fetch id = some ev) (hr : RuledBy store ev pl) :
    (s.parsedOrInsert pl.eventId (parsedFields c pl)).1 = parsedFields c pl ∧
      CachesAfter c store (earlier ++ [⟨none, id⟩]) (s.parsedOrInsert pl.eventId (parsedFields c pl)).2 := by
  have hsorted : SearchedBy (earlier ++ [⟨none, id⟩]) id := List.mem_append_right _ (List.mem_singleton_self _)
  have hsound : CachesSound c store (SearchedBy (earlier ++ [⟨none, id⟩])) s :=
    h.sound.mono fun _ hx => List.mem_append_left _ hx
  obtain ⟨heq, hsound⟩ := parsedOrInsert_sound ⟨id, ev, hsorted, hf, hr⟩ hsound
  refine ⟨heq, hsound, fun id' hid' => ?_⟩
  have hruling : LevelCall.ruling store ⟨none, id⟩ = some pl :=
    LevelCall.ruling_iff.mpr ⟨ev, LevelCall.event_iff.mpr ⟨rfl, hf, hr.1⟩, hr⟩
  have hid' : id' ∈ parsedBy store earlier ∨ id' = pl.eventId := by
    simpa [parsedBy, hruling, eq_comm] using hid'
  unfold PlCaches.parsedOrInsert
  cases hl : s.parsed.lookup pl.eventId with
  | some fields =>
    rcases hid' with hid' | rfl
    · exact h.parsed id' hid'
    · simp [hl]
  | none =>
    by_cases he : id' = pl.eventId
    · subst he
      simp
    · simp only [AList.lookup_insert_ne he]
      exact h.parsed id' (hid'.resolve_right he)

theorem CachesAfter.scan (h : CachesAfter c store earlier s) (hclear : Clear c store earlier call) {ev : Pdu}
    (hev : call.event store = some ev) : (scanAuthEvents store ev.authEvents none none).run s =
      ((firstCreate store ev.authEvents, firstPowerLevels store ev.authEvents), s) := by
  have hsame : (fun id => (s.parsed.lookup id).isSome) = fun id => decide (id ∈ parsedBy store earlier) :=
    funext fun id => Bool.eq_iff_iff.mpr ((h.parsed_iff id).trans decide_eq_true_iff.symm)
  refine scanAuthEvents_run s ev.authEvents none none fun aid hmem hcached => ?_
  rw [hsame] at hmem
  obtain ⟨q, hq, rfl⟩ := hclear.one ev hev aid hmem ((h.parsed_iff aid).mp hcached)
  exact ⟨q, (fetch_firstPowerLevels hq).1, (fetch_firstPowerLevels hq).2, hq⟩

theorem CachesAfter.memoised {id : EventId} {ev pl : Pdu} (h : CachesAfter c store (earlier ++ [⟨none, id⟩]) s)
    (hclear : Clear c store earlier ⟨none, id⟩) (hf : store.fetch id = some ev)
    (hr : RuledBy store ev pl) {level : Int}
    (hl : s.sender.lookup (ev.sender, pl.eventId) = some level) :
    level = levelUnder c (firstCreate store ev.authEvents) pl ev.sender := by
  have hev : LevelCall.event store ⟨none, id⟩ = some ev := LevelCall.event_iff.mpr ⟨rfl, hf, hr.1⟩
  refine memoised_level hr (fun y ev' hy hf' hr' hs => ?_) h.sound hl
  rcases List.mem_append.mp hy with hy | hy
  · have hev' : LevelCall.event store ⟨none, y⟩ = some ev' := LevelCall.event_iff.mpr ⟨rfl, hf', hr'.1⟩
    exact hclear.privilege ev hev pl (LevelCall.ruling_iff.mpr ⟨ev, hev, hr⟩) ⟨none, y⟩ hy ev' hev'
      (LevelCall.ruling_iff.mpr ⟨ev', hev', hr'⟩) hs
  · obtain rfl : y = id := by simpa using hy
    rw [hf] at hf'
    cases hf'
    rfl

/-- A clear lookup answers the level its own event gives. -/
theorem LevelCall.run_spec (h : CachesAfter c store earlier s) (hclear : Clear c store earlier call) :
    ((call.prog c store).run s).1 = levelIn c store call.context call.id ∧
      CachesAfter c store (earlier ++ [call]) ((call.prog c store).run s).2 := by
  obtain ⟨context, id⟩ := call
  unfold LevelCall.prog getPowerLevelForSender
  cases context with
  | some context =>
    have hkeep := h.keep ⟨some context, id⟩ rfl
    cases hf : store.fetch id with
    | none => simpa [levelIn, hf] using hkeep
    | some ev => simpa [levelIn, hf] using hkeep
  | none =>
  rw [levelIn_none]
  cases hf : store.fetch id with
  | none =>
    have hkeep := h.keep ⟨none, id⟩ (by simp [ruling, event, hf])
    simpa [citedLevel, hf] using hkeep
  | some ev =>
  by_cases hc : isTypeAndKey ev .roomCreate "" = true
  · have hkeep := h.keep ⟨none, id⟩ (by simp [ruling, event, hf, Option.filter, hc])
    simpa [citedLevel, hf, hc] using hkeep
  have hc : isTypeAndKey ev .roomCreate "" = false := by simpa using hc
  have hev : event store ⟨none, id⟩ = some ev := event_iff.mpr ⟨rfl, hf, hc⟩
  simp only [hc, Bool.false_eq_true, if_false, Prog.run_bind, h.scan hclear hev]
  cases hpl : firstPowerLevels store ev.authEvents with
  | none =>
    have hkeep := h.keep ⟨none, id⟩ (by simp [ruling, hev, hpl])
    cases hcr : firstCreate store ev.authEvents with
    | none => simpa [citedLevel, hf, hc, hpl, hcr] using hkeep
    | some creator => simpa [citedLevel, hf, hc, hpl, hcr] using hkeep
  | some pl =>
    have hruled : RuledBy store ev pl := ⟨hc, hpl⟩
    have hlevel : citedLevel c store id = levelUnder c (firstCreate store ev.authEvents) pl ev.sender := by
      simp [citedLevel, hf, hc, hpl]
    obtain ⟨hfields, hafter⟩ := h.parsedOrInsert hf hruled
    simp only [Prog.run_bind, Prog.run_act, Prog.run_read, hfields]
    generalize (s.parsedOrInsert pl.eventId (parsedFields c pl)).2 = s' at hafter ⊢
    cases hl : s'.sender.lookup (ev.sender, pl.eventId) with
    | some level => exact ⟨(hafter.memoised hclear hf hruled hl).trans hlevel.symm, hafter⟩
    | none =>
      refine ⟨hlevel.symm, insertSender_sound ?_ hf hruled hafter.sound, hafter.parsed⟩
      exact List.mem_append_right _ (List.mem_singleton_self _)

theorem cachesAfter_empty : CachesAfter c store [] .empty where
  sound := cachesSound_empty _
  parsed id hid := by simp [parsedBy] at hid

variable (c store)

theorem cachesAfter_append (earlier : List LevelCall) (call : LevelCall) :
    cachesAfter c store (earlier ++ [call]) = ((call.prog c store).run (cachesAfter c store earlier)).2 := by
  simp [cachesAfter]

theorem cachesAfter_spec (calls : List LevelCall)
    (h : ∀ earlier call, earlier ++ [call] <+: calls → Clear c store earlier call) :
    CachesAfter c store calls (cachesAfter c store calls) := by
  induction calls using List.reverseRecOn with
  | nil => exact cachesAfter_empty
  | append_singleton earlier call ih =>
    rw [cachesAfter_append]
    have hpre : ∀ e c', e ++ [c'] <+: earlier → Clear c store e c' := fun e c' he =>
      h e c' (he.trans (List.prefix_append _ _))
    exact (LevelCall.run_spec (ih hpre) (h earlier call List.prefix_rfl)).2

theorem clear_nil (call : LevelCall) : Clear c store [] call where
  one := by simp [parsedBy]
  privilege := by simp

/-- Every lookup of a run of clear lookups answers what it answers on empty tables. -/
theorem memoised_level_agrees (calls : List LevelCall)
    (h : ∀ earlier call, earlier ++ [call] <+: calls → Clear c store earlier call) :
    ∀ earlier call, earlier ++ [call] <+: calls →
      ((call.prog c store).run (cachesAfter c store earlier)).1 = ((call.prog c store).run .empty).1 := by
  intro earlier call hpre
  have hearlier : ∀ e c', e ++ [c'] <+: earlier → Clear c store e c' := fun e c' he =>
    h e c' (he.trans ((List.prefix_append _ _).trans hpre))
  have hmemo := (LevelCall.run_spec (cachesAfter_spec c store earlier hearlier) (h earlier call hpre)).1
  have hplain := (LevelCall.run_spec (@cachesAfter_empty c store) (clear_nil c store call)).1
  rw [hmemo, hplain]

end

/-- On the fork of `forkStore` the lookup of the second power levels memoises the level that
the sender of the invite rule has under the first. -/
theorem memoised_level_fork :
    (cachesAfter .plain forkStore [⟨none, "$p2"⟩]).sender.lookup ("@alice:a", "$p1") = some 100 ∧
      ∀ (earlier : List LevelCall) (call : LevelCall), earlier ++ [call] <+: [⟨none, "$p2"⟩, ⟨none, "$j1"⟩] →
        ((call.prog .plain forkStore).run (cachesAfter .plain forkStore earlier)).1 =
          ((call.prog .plain forkStore).run PlCaches.empty).1 := by
  refine ⟨by decide, memoised_level_agrees .plain forkStore _ fun earlier call hpre => ?_⟩
  have hcreate : ∀ ev ∈ forkStore.events,
      createPrivileges .plain (firstCreate forkStore ev.authEvents) ev.sender = false := by decide
  have hruled : ∀ ev ∈ LevelCall.event forkStore ⟨none, "$j1"⟩,
      ∀ aid ∈ lookedAt forkStore (· ∈ parsedBy forkStore [⟨none, "$p2"⟩]) ev.authEvents false false,
        aid ∈ parsedBy forkStore [⟨none, "$p2"⟩] →
          (firstPowerLevels forkStore ev.authEvents).any (·.eventId = aid) = true := by decide
  have hclear : Clear .plain forkStore [⟨none, "$p2"⟩] ⟨none, "$j1"⟩ := {
    one := fun ev hev aid hmem hparsed => by
      simpa [Option.any_eq_true] using hruled ev hev aid hmem hparsed
    privilege := fun ev hev _ _ _ _ ev' hev' _ hs => by
      rw [hcreate ev (EventStore.mem_of_fetch (LevelCall.event_iff.mp hev).2.1), ← hs,
        hcreate ev' (EventStore.mem_of_fetch (LevelCall.event_iff.mp hev').2.1)] }
  match earlier, hpre with
  | [], _ => exact clear_nil .plain forkStore call
  | [first], hpre =>
    obtain ⟨rfl, rfl⟩ : first = ⟨none, "$p2"⟩ ∧ call = ⟨none, "$j1"⟩ := by simpa using hpre
    exact hclear
  | _ :: _ :: _, hpre => exact absurd hpre.length_le (by simp)

/-- The invite rule cites both power-levels events of the fork: when an earlier lookup
parsed the second, it is answered the sender's level there. -/
theorem memoised_level_differs :
    ¬ ∀ (store : EventStore) (earlier : List LevelCall) (call : LevelCall),
      ((call.prog .plain store).run (cachesAfter .plain store earlier)).1 =
        ((call.prog .plain store).run PlCaches.empty).1 := by
  intro h
  have hmemo := h forkStore [⟨none, "$j2"⟩] ⟨none, "$j1"⟩
  revert hmemo
  decide

end Congruent
