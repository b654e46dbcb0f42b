import Congruent.KeyedMap
import Congruent.ResolveSound

/-!
# Power levels of senders under shared memo tables

The lookups of a sort run concurrently and share their memo tables. Where no
lookup looks at a power-levels event, besides the one that rules its own event,
that rules another one, and the events of a sender under one power-levels event
agree on the creator's privilege, every lookup answers the level its own event
gives, in every interleaving.
-/

namespace Congruent

section
variable (c : Codec) (store : EventStore)

def firstCreate (authEvents : List EventId) : Option Pdu :=
  authEvents.findSome? fun aid => (store.fetch aid).filter fun ev => isTypeAndKey ev .roomCreate ""

def levelUnder (creator : Option Pdu) (pl : Pdu) (sender : UserId) : Int :=
  if createPrivileges c creator sender then intMax
  else ((parsedFields c pl).getUserPower sender).getD (parsedFields c pl).usersDefault

def citedLevel (id : EventId) : Int :=
  match store.fetch id with
  | none => 0
  | some ev =>
    if isTypeAndKey ev .roomCreate "" then intMax
    else
      match firstPowerLevels store ev.authEvents, firstCreate store ev.authEvents with
      | some pl, creator => levelUnder c creator pl ev.sender
      | none, some creator => if isRoomCreator c creator ev.sender then intMax else 0
      | none, none => 0

/-- The level a lookup should answer. -/
def levelIn (context : Option PowerLevelsContentFields) (id : EventId) : Int :=
  match context, store.fetch id with
  | some context, some ev => (context.getUserPower ev.sender).getD context.usersDefault
  | some _, none => 0
  | none, _ => citedLevel c store id

/-- A power-levels event rules an event, which is not a create event, when it is
the first one it cites. -/
def RuledBy (ev pl : Pdu) : Prop :=
  isTypeAndKey ev .roomCreate "" = false ∧ firstPowerLevels store ev.authEvents = some pl

/-- The auth events that a search looks at, given which ones are parsed and whether it has a
create event and a power-levels event: it stops behind one that is not parsed. -/
def lookedAt (parsed : EventId → Bool) : List EventId → Bool → Bool → List EventId
  | [], _, _ => []
  | aid :: aids, creator, pl =>
    if parsed aid then aid :: lookedAt parsed aids creator true
    else
      let creator := creator || (store.fetch aid).any fun ev => isTypeAndKey ev .roomCreate ""
      let pl := pl || (store.fetch aid).any fun ev => isTypeAndKey ev .roomPowerLevels ""
      aid :: if creator && pl then [] else lookedAt parsed aids creator pl

/-- An event of the sort other than `x` is ruled by the event with this id. -/
def RuledElsewhere (sorted : EventId → Prop) (x id : EventId) : Prop :=
  ∃ y ev pl, y ≠ x ∧ sorted y ∧ store.fetch y = some ev ∧ RuledBy store ev pl ∧ pl.eventId = id

/-- Events whose levels do not depend on each other's lookups: whichever of the
power-levels events that rule others are parsed, a lookup looks at none of them
but the one that rules its event, and those of one sender under one power-levels
event agree on the creator's privilege. -/
structure LevelsSettled (sorted : EventId → Prop) : Prop where
  one : ∀ {x ev}, sorted x → store.fetch x = some ev → isTypeAndKey ev .roomCreate "" = false →
    ∀ parsed : EventId → Bool, (∀ id, parsed id = true → RuledElsewhere store sorted x id) →
    ∀ aid ∈ lookedAt store parsed ev.authEvents false false, parsed aid = true →
      ∃ pl, firstPowerLevels store ev.authEvents = some pl ∧ pl.eventId = aid
  privilege : ∀ {x y ev ev' pl}, sorted x → sorted y → store.fetch x = some ev → store.fetch y = some ev' →
    RuledBy store ev pl → RuledBy store ev' pl → ev.sender = ev'.sender →
    createPrivileges c (firstCreate store ev.authEvents) ev.sender =
      createPrivileges c (firstCreate store ev'.authEvents) ev.sender

def Rules (sorted : EventId → Prop) (pl : Pdu) : Prop :=
  ∃ x ev, sorted x ∧ store.fetch x = some ev ∧ RuledBy store ev pl

/-- The tables hold what was read from the events of the sort. -/
structure CachesSound (sorted : EventId → Prop) (s : PlCaches) : Prop where
  parsed : ∀ {id fields}, s.parsed.lookup id = some fields →
    ∃ pl, store.fetch id = some pl ∧ Rules store sorted pl ∧ fields = parsedFields c pl
  sender : ∀ {user id level}, s.sender.lookup (user, id) = some level →
    ∃ x ev pl, sorted x ∧ store.fetch x = some ev ∧ RuledBy store ev pl ∧ ev.sender = user ∧ pl.eventId = id ∧
      level = levelUnder c (firstCreate store ev.authEvents) pl user

end

section
variable {c : Codec} {store : EventStore}

theorem cachesSound_empty (sorted : EventId → Prop) : CachesSound c store sorted .empty where
  parsed h := by rw [PlCaches.empty, AList.lookup_empty] at h; cases h
  sender h := by rw [PlCaches.empty, AList.lookup_empty] at h; cases h

theorem powerLevels_ne_create {ev : Pdu} (h : isTypeAndKey ev .roomPowerLevels "" = true) :
    isTypeAndKey ev .roomCreate "" = false := by
  unfold isTypeAndKey at h ⊢
  simp only [Bool.and_eq_true, decide_eq_true_eq] at h
  simp [h.1]

theorem firstPowerLevels_cons (aid : EventId) (aids : List EventId) :
    firstPowerLevels store (aid :: aids) =
      ((store.fetch aid).filter fun ev => isTypeAndKey ev .roomPowerLevels "").or (firstPowerLevels store aids) :=
  List.findSome?_cons_or _ aid aids

theorem firstCreate_cons (aid : EventId) (aids : List EventId) :
    firstCreate store (aid :: aids) =
      ((store.fetch aid).filter fun ev => isTypeAndKey ev .roomCreate "").or (firstCreate store aids) :=
  List.findSome?_cons_or _ aid aids

/-! ## One lookup -/

section
variable {sorted : EventId → Prop}

theorem noteAuthEvent_eq (aid : EventId) (aids : List EventId) (creator pl : Option Pdu) :
    ((noteAuthEvent (store.fetch aid) creator pl).1.or (firstCreate store aids),
      (noteAuthEvent (store.fetch aid) creator pl).2.or (firstPowerLevels store aids)) =
      (creator.or (firstCreate store (aid :: aids)), pl.or (firstPowerLevels store (aid :: aids))) := by
  rw [firstCreate_cons, firstPowerLevels_cons]
  cases hf : store.fetch aid with
  | none => simp [noteAuthEvent, Option.filter]
  | some aev =>
    by_cases hp : isTypeAndKey aev .roomPowerLevels "" = true
    · have hc := powerLevels_ne_create hp
      cases pl <;> simp [noteAuthEvent, Option.filter, hp, hc]
    · by_cases hc : isTypeAndKey aev .roomCreate "" = true
      · cases creator <;> simp [noteAuthEvent, Option.filter, hp, hc]
      · simp [noteAuthEvent, Option.filter, hp, hc]

theorem noteAuthEvent_found (aev creator pl : Option Pdu) :
    (noteAuthEvent aev creator pl).1.isSome = (creator.isSome || aev.any fun ev => isTypeAndKey ev .roomCreate "") ∧
      (noteAuthEvent aev creator pl).2.isSome =
        (pl.isSome || aev.any fun ev => isTypeAndKey ev .roomPowerLevels "") := by
  cases aev with
  | none => simp [noteAuthEvent]
  | some aev =>
    by_cases hp : isTypeAndKey aev .roomPowerLevels "" = true
    · have hc := powerLevels_ne_create hp
      cases pl <;> simp [noteAuthEvent, hp, hc]
    · by_cases hc : isTypeAndKey aev .roomCreate "" = true
      · cases creator <;> simp [noteAuthEvent, hp, hc]
      · simp [noteAuthEvent, hp, hc]

theorem fetch_firstPowerLevels {aids : List EventId} {pl : Pdu} (h : firstPowerLevels store aids = some pl) :
    store.fetch pl.eventId = some pl ∧ isTypeAndKey pl .roomPowerLevels "" = true := by
  obtain ⟨aid, -, hf, hp⟩ := firstPowerLevels_some h
  rw [EventStore.eventId_of_fetch hf]
  exact ⟨hf, hp⟩

theorem Rules.fetch {pl : Pdu} (h : Rules store sorted pl) :
    store.fetch pl.eventId = some pl ∧ isTypeAndKey pl .roomPowerLevels "" = true := by
  obtain ⟨x, ev, -, -, hr⟩ := h
  exact fetch_firstPowerLevels hr.2

theorem mem_of_lookedAt {parsed : EventId → Bool} {aid : EventId} : ∀ (aids : List EventId) (creator pl : Bool),
    aid ∈ lookedAt store parsed aids creator pl → aid ∈ aids
  | [], _, _, h => h
  | a :: aids, creator, pl, h => by
    unfold lookedAt at h
    split at h
    · exact List.mem_cons.mpr ((List.mem_cons.mp h).imp_right (mem_of_lookedAt aids _ _))
    · refine List.mem_cons.mpr ((List.mem_cons.mp h).imp_right fun h => ?_)
      split at h
      · cases h
      · exact mem_of_lookedAt aids _ _ h

theorem RuledElsewhere.fetch {x id : EventId} (h : RuledElsewhere store sorted x id) :
    ∃ q, store.fetch id = some q ∧ isTypeAndKey q .roomPowerLevels "" = true := by
  obtain ⟨y, ev, pl, -, -, -, hr, rfl⟩ := h
  exact ⟨pl, fetch_firstPowerLevels hr.2⟩

/-- The scan finds the first create event and the first power-levels event, when the table
holds at most what `parsed` allows, and of those the scan looks only at the event it is for. -/
theorem scanAuthEvents_guarded {A : Type} {I : PlCaches → Prop} {R G : PlCaches → PlCaches → Prop}
    {Q : A → PlCaches → Prop} {k : Option Pdu × Option Pdu → Prog PlCaches A} {found : Option Pdu × Option Pdu}
    (parsed : EventId → Bool) (hrefl : ∀ s, R s s) (hG : ∀ s, G s s)
    (hkept : ∀ s s', R s s' → (∀ id, (s.parsed.lookup id).isSome = true → parsed id = true) →
      ∀ id, (s'.parsed.lookup id).isSome = true → parsed id = true)
    (hk : ∀ s, I s → Prog.Guarded I R G Q (k found) s) :
    ∀ (aids : List EventId) (creator pl : Option Pdu) (s : PlCaches),
    (∀ id, (s.parsed.lookup id).isSome = true → parsed id = true) →
    (∀ aid ∈ lookedAt store parsed aids creator.isSome pl.isSome, parsed aid = true → ∃ q,
      store.fetch aid = some q ∧ isTypeAndKey q .roomPowerLevels "" = true ∧
        pl.or (firstPowerLevels store aids) = some q) →
    found = (creator.or (firstCreate store aids), pl.or (firstPowerLevels store aids)) →
    Prog.Guarded I R G Q (scanAuthEvents store aids creator pl >>= k) s
  | [], creator, pl, s, _, _, hfound => by
    have hfound : found = (creator, pl) := by simpa [firstCreate, firstPowerLevels] using hfound
    subst hfound
    exact Prog.Guarded.of_forall hrefl fun s' _ hI => hk s' hI
  | aid :: aids, creator, pl, s, hs, hlooked, hfound => by
    unfold scanAuthEvents
    unfold lookedAt at hlooked
    rw [bind_assoc]
    refine Prog.Guarded.read hG fun s' hr hI => ?_
    have hs' := hkept s s' hr hs
    by_cases hp : parsed aid = true
    · -- the id may be cached: either way the scan goes on with the event it is for
      simp only [hp, if_true, List.mem_cons, forall_eq_or_imp, forall_const] at hlooked
      obtain ⟨⟨q, hf, hq, hpl⟩, hlooked⟩ := hlooked
      have hcr : firstCreate store (aid :: aids) = firstCreate store aids := by
        simp [firstCreate_cons, Option.filter, hf, powerLevels_ne_create hq]
      rw [hpl, hcr] at hfound
      have hrest : Prog.Guarded I R G Q (scanAuthEvents store aids creator (some q) >>= k) s' := by
        refine scanAuthEvents_guarded parsed hrefl hG hkept hk aids creator (some q) s' hs' ?_ hfound
        intro aid' hmem hp'
        obtain ⟨q', hf', hq', hpl'⟩ := hlooked aid' hmem hp'
        exact ⟨q', hf', hq', by rw [Option.some_or, ← hpl, hpl']⟩
      have hnote : noteAuthEvent (store.fetch aid) creator pl = (creator, some q) := by
        cases pl with
        | none => simp [noteAuthEvent, hf, hq, powerLevels_ne_create hq]
        | some p =>
          obtain rfl : p = q := by simpa using hpl
          simp [noteAuthEvent, hf, powerLevels_ne_create hq]
      rw [hnote, hf]
      split
      · exact hrest
      · dsimp only
        split
        · rename_i hboth
          obtain ⟨cr, rfl⟩ := Option.isSome_iff_exists.mp (Bool.and_eq_true_iff.mp hboth).1
          rw [Option.some_or] at hfound
          subst hfound
          exact Prog.Guarded.of_forall hrefl fun s'' _ hI => hk s'' hI
        · exact hrest
    · have hcached : (s'.parsed.lookup aid).isSome = false := by
        simpa using fun h => hp (hs' aid h)
      have hnote := @noteAuthEvent_eq store aid aids creator pl
      obtain ⟨hc, hl⟩ := noteAuthEvent_found (store.fetch aid) creator pl
      simp only [hp, Bool.false_eq_true, if_false, ← hc, ← hl, List.mem_cons, forall_eq_or_imp] at hlooked
      simp only [hcached, Bool.false_eq_true, if_false]
      rw [← hnote] at hfound
      split
      · rename_i hboth
        simp only [Bool.and_eq_true, Option.isSome_iff_exists] at hboth
        obtain ⟨⟨cr, hcr⟩, ⟨p, hp⟩⟩ := hboth
        rw [hcr, hp, Option.some_or, Option.some_or, ← hcr, ← hp] at hfound
        subst hfound
        exact Prog.Guarded.of_forall hrefl fun s'' _ hI => hk s'' hI
      · rename_i hboth
        rw [if_neg hboth] at hlooked
        refine scanAuthEvents_guarded parsed hrefl hG hkept hk aids _ _ s' hs' (fun aid' hmem hp' => ?_) hfound
        obtain ⟨q, hf, hq, hpl⟩ := hlooked.2 aid' hmem hp'
        exact ⟨q, hf, hq, (congrArg Prod.snd hnote).trans hpl⟩

theorem parsedOrInsert_sound {pl : Pdu} (hr : Rules store sorted pl) {s : PlCaches}
    (hI : CachesSound c store sorted s) :
    (s.parsedOrInsert pl.eventId (parsedFields c pl)).1 = parsedFields c pl ∧
      CachesSound c store sorted (s.parsedOrInsert pl.eventId (parsedFields c pl)).2 := by
  unfold PlCaches.parsedOrInsert
  cases hl : s.parsed.lookup pl.eventId with
  | some fields =>
    obtain ⟨pl', hf', -, rfl⟩ := hI.parsed hl
    rw [hr.fetch.1] at hf'
    cases hf'
    exact ⟨rfl, hI⟩
  | none =>
    refine ⟨rfl, ⟨fun {id fields} h => ?_, hI.sender⟩⟩
    by_cases hid : id = pl.eventId
    · subst hid
      rw [AList.lookup_insert] at h
      cases h
      exact ⟨pl, hr.fetch.1, hr, rfl⟩
    · rw [AList.lookup_insert_ne hid] at h
      exact hI.parsed h

theorem insertSender_sound {x : EventId} {ev pl : Pdu} (hx : sorted x) (hf : store.fetch x = some ev)
    (hr : RuledBy store ev pl) {s : PlCaches} (hI : CachesSound c store sorted s) :
    CachesSound c store sorted
      (s.insertSender (ev.sender, pl.eventId) (levelUnder c (firstCreate store ev.authEvents) pl ev.sender)) := by
  refine ⟨hI.parsed, fun {user id level} h => ?_⟩
  unfold PlCaches.insertSender at h
  by_cases hk : (user, id) = (ev.sender, pl.eventId)
  · cases hk
    rw [AList.lookup_insert] at h
    cases h
    exact ⟨x, ev, pl, hx, hf, hr, rfl, rfl, rfl⟩
  · rw [AList.lookup_insert_ne hk] at h
    exact hI.sender h

/-- A memoised level is the level of an event of the sender under the same power-levels
event that agrees with the others on the creator's privilege. -/
theorem memoised_level {ev pl : Pdu} (hr : RuledBy store ev pl)
    (hpriv : ∀ y ev', sorted y → store.fetch y = some ev' → RuledBy store ev' pl → ev'.sender = ev.sender →
      createPrivileges c (firstCreate store ev'.authEvents) ev.sender =
        createPrivileges c (firstCreate store ev.authEvents) ev.sender)
    {s : PlCaches} (hI : CachesSound c store sorted s) {level : Int}
    (h : s.sender.lookup (ev.sender, pl.eventId) = some level) :
    level = levelUnder c (firstCreate store ev.authEvents) pl ev.sender := by
  obtain ⟨y, ev', pl', hy, hf', hr', hs, hid, rfl⟩ := hI.sender h
  have hsame : pl' = pl := by
    have := (fetch_firstPowerLevels hr'.2).1
    rw [hid, (fetch_firstPowerLevels hr.2).1] at this
    exact (Option.some.inj this).symm
  subst hsame
  unfold levelUnder
  rw [hpriv y ev' hy hf' hr' hs]

theorem levelIn_none (id : EventId) : levelIn c store none id = citedLevel c store id := by
  unfold levelIn
  cases store.fetch id <;> rfl

/-! ## Concurrent lookups -/

/-- Nothing is taken out of the tables. -/
structure PlCaches.Grows (s s' : PlCaches) : Prop where
  parsed : ∀ id, (s.parsed.lookup id).isSome = true → (s'.parsed.lookup id).isSome = true
  sender : ∀ key, (s.sender.lookup key).isSome = true → (s'.sender.lookup key).isSome = true

theorem PlCaches.Grows.refl (s : PlCaches) : s.Grows s := ⟨fun _ => id, fun _ => id⟩

theorem PlCaches.Grows.trans {s s' s'' : PlCaches} (h : s.Grows s') (h' : s'.Grows s'') : s.Grows s'' :=
  ⟨fun id hid => h'.parsed id (h.parsed id hid), fun key hk => h'.sender key (h.sender key hk)⟩

variable (store sorted) in
/-- Other lookups than that of `x` may have parsed what is parsed. -/
def ParsedElsewhere (x : EventId) (s : PlCaches) : Prop :=
  ∀ id, (s.parsed.lookup id).isSome = true → RuledElsewhere store sorted x id

variable (store sorted) in
/-- What the lookup of `x` relies on. -/
def LookupRely (x : EventId) (s s' : PlCaches) : Prop :=
  s.Grows s' ∧ (ParsedElsewhere store sorted x s → ParsedElsewhere store sorted x s')

variable (store sorted) in
/-- What the lookup of `x` keeps for every other one. -/
def LookupGuarantee (x : EventId) (s s' : PlCaches) : Prop :=
  s.Grows s' ∧ ∀ y, x ≠ y → ParsedElsewhere store sorted y s → ParsedElsewhere store sorted y s'

theorem lookupRely_refl (x : EventId) (s : PlCaches) : LookupRely store sorted x s s := ⟨.refl s, id⟩

theorem lookupRely_trans (x : EventId) (s s' s'' : PlCaches) (h : LookupRely store sorted x s s')
    (h' : LookupRely store sorted x s' s'') : LookupRely store sorted x s s'' :=
  ⟨h.1.trans h'.1, fun hp => h'.2 (h.2 hp)⟩

theorem lookupGuarantee_refl (x : EventId) (s : PlCaches) : LookupGuarantee store sorted x s s :=
  ⟨.refl s, fun _ _ => id⟩

theorem lookups_compatible {ids : List EventId} (hnd : ids.Nodup) :
    Prog.Compatible (LookupRely store sorted) (LookupGuarantee store sorted) ids :=
  hnd.imp fun hne _ _ => ⟨fun h => ⟨h.1, h.2 _ hne⟩, fun h => ⟨h.1, h.2 _ hne.symm⟩⟩

theorem parsedOrInsert_guarantee {x : EventId} {ev pl : Pdu} (hx : sorted x) (hf : store.fetch x = some ev)
    (hr : RuledBy store ev pl) (s : PlCaches) (fields : PowerLevelsContentFields) :
    LookupGuarantee store sorted x s (s.parsedOrInsert pl.eventId fields).2 ∧
      ((s.parsedOrInsert pl.eventId fields).2.parsed.lookup pl.eventId).isSome = true := by
  unfold PlCaches.parsedOrInsert
  cases hl : s.parsed.lookup pl.eventId with
  | some fields => exact ⟨lookupGuarantee_refl x s, by simp [hl]⟩
  | none =>
    refine ⟨⟨⟨fun id h => ?_, fun _ => id⟩, fun y hne hy id h => ?_⟩, by simp⟩
    · by_cases hid : id = pl.eventId
      · rw [hid, AList.lookup_insert, Option.isSome_some]
      · simpa [AList.lookup_insert_ne hid] using h
    · by_cases hid : id = pl.eventId
      · exact ⟨x, ev, pl, hne, hx, hf, hr, hid.symm⟩
      · exact hy id (by simpa [AList.lookup_insert_ne hid] using h)

theorem insertSender_guarantee (x : EventId) (key : UserId × EventId) (level : Int) (s : PlCaches) :
    LookupGuarantee store sorted x s (s.insertSender key level) ∧
      ((s.insertSender key level).sender.lookup key).isSome = true := by
  unfold PlCaches.insertSender
  refine ⟨⟨⟨fun _ => id, fun k h => ?_⟩, fun _ _ => id⟩, by simp⟩
  by_cases hk : k = key
  · rw [hk, AList.lookup_insert, Option.isSome_some]
  · simpa [AList.lookup_insert_ne hk] using h

variable (store) in
def LeftEntries (x : EventId) (s : PlCaches) : Prop :=
  ∀ ev pl, store.fetch x = some ev → RuledBy store ev pl →
    (s.parsed.lookup pl.eventId).isSome = true ∧ (s.sender.lookup (ev.sender, pl.eventId)).isSome = true

/-- Under any interleaving a lookup answers the level its event gives, and leaves its entries. -/
theorem getPowerLevelForSender_guarded (hset : LevelsSettled c store sorted) {x : EventId} (hx : sorted x)
    {s : PlCaches} (hs : ParsedElsewhere store sorted x s) :
    Prog.Guarded (CachesSound c store sorted) (LookupRely store sorted x) (LookupGuarantee store sorted x)
      (fun level s => level = citedLevel c store x ∧ LeftEntries store x s)
      (getPowerLevelForSender c store none x) s := by
  unfold getPowerLevelForSender
  cases hf : store.fetch x with
  | none => exact fun _ _ _ => ⟨by simp [citedLevel, hf], fun ev pl hf' => by simp [hf] at hf'⟩
  | some ev =>
  have hidle : (∀ pl, ¬RuledBy store ev pl) → ∀ s, Prog.Guarded (CachesSound c store sorted)
      (LookupRely store sorted x) (LookupGuarantee store sorted x)
      (fun level s => level = citedLevel c store x ∧ LeftEntries store x s) (.ret (citedLevel c store x)) s := by
    refine fun hn _ _ _ _ => ⟨rfl, fun ev' pl hf' hr => absurd hr ?_⟩
    cases hf.symm.trans hf'
    exact hn pl
  simp only
  split
  · rename_i hc
    have hlevel : citedLevel c store x = intMax := by simp [citedLevel, hf, hc]
    exact hlevel ▸ hidle (fun pl hr => by simp [hr.1] at hc) s
  rename_i hc
  have hc : isTypeAndKey ev .roomCreate "" = false := by simpa using hc
  classical
  refine scanAuthEvents_guarded (fun id => decide (RuledElsewhere store sorted x id)) (lookupRely_refl x)
    (lookupGuarantee_refl x) (fun s s' hr hp id hid => ?_) (fun s hI => ?_) ev.authEvents none none s
    (fun id hid => decide_eq_true (hs id hid)) (fun aid hmem hp => ?_) rfl
  · exact decide_eq_true (hr.2 (fun id hid => of_decide_eq_true (hp id hid)) id hid)
  · simp only [Option.none_or]
    cases hpl : firstPowerLevels store ev.authEvents with
    | none =>
      have hn : ∀ pl, ¬RuledBy store ev pl := fun pl hr => by simp [hr.2] at hpl
      cases hcr : firstCreate store ev.authEvents with
      | none =>
        have hlevel : citedLevel c store x = 0 := by simp [citedLevel, hf, hc, hpl, hcr]
        exact hlevel ▸ hidle hn s
      | some creator =>
        have hlevel : citedLevel c store x = if isRoomCreator c creator ev.sender then intMax else 0 := by
          simp [citedLevel, hf, hc, hpl, hcr]
        exact hlevel ▸ hidle hn s
    | some pl =>
      have hruled : RuledBy store ev pl := ⟨hc, hpl⟩
      have hlevel : citedLevel c store x = levelUnder c (firstCreate store ev.authEvents) pl ev.sender := by
        simp [citedLevel, hf, hc, hpl]
      have hentered : ∀ s : PlCaches, (s.parsed.lookup pl.eventId).isSome = true →
          (s.sender.lookup (ev.sender, pl.eventId)).isSome = true → LeftEntries store x s := by
        intro s hp hl ev' pl' hf' hr'
        cases hf.symm.trans hf'
        cases hpl.symm.trans hr'.2
        exact ⟨hp, hl⟩
      simp only [hlevel]
      refine Prog.Guarded.act fun s₁ _ hI₁ => ?_
      obtain ⟨hparsed, hI₂⟩ := parsedOrInsert_sound ⟨x, ev, hx, hf, hruled⟩ hI₁
      obtain ⟨hg, hp⟩ := parsedOrInsert_guarantee hx hf hruled s₁ (parsedFields c pl)
      refine ⟨hI₂, hg, Prog.Guarded.read (lookupGuarantee_refl x) fun s₂ hr₂ hI₂ => ?_⟩
      have hp := hr₂.1.parsed _ hp
      rw [hparsed]
      split
      · rename_i level hl
        refine fun s₃ hr₃ _ => ⟨memoised_level hruled (fun y ev' hy hf' hr' hs => ?_) hI₂ hl, ?_⟩
        · exact (hset.privilege hx hy hf hf' hruled hr' hs.symm).symm
        · exact hentered s₃ (hr₃.1.parsed _ hp) (hr₃.1.sender _ (by rw [hl]; rfl))
      · refine Prog.Guarded.act fun s₃ hr₃ hI₃ => ?_
        obtain ⟨hg, hl⟩ := @insertSender_guarantee store sorted x (ev.sender, pl.eventId)
          (levelUnder c (firstCreate store ev.authEvents) pl ev.sender) s₃
        refine ⟨insertSender_sound hx hf hruled hI₃, hg, fun s₄ hr₄ _ => ⟨rfl, ?_⟩⟩
        exact hentered s₄ (hr₄.1.parsed _ (hg.1.parsed _ (hr₃.1.parsed _ hp))) (hr₄.1.sender _ hl)
  · obtain ⟨pl, hpl, rfl⟩ := hset.one hx hf hc _ (fun id hid => of_decide_eq_true hid) aid hmem hp
    exact ⟨pl, (fetch_firstPowerLevels hpl).1, (fetch_firstPowerLevels hpl).2, hpl⟩

/-- The tables after the lookups of a sort: sound, and every lookup has left its entries. -/
structure CachesFull (c : Codec) (store : EventStore) (sorted : EventId → Prop) (s : PlCaches) : Prop where
  sound : CachesSound c store sorted s
  entries : ∀ x, sorted x → LeftEntries store x s

theorem eq_map_of_forall₂ {α β : Type} {f : α → β} {P : α → β → Prop} :
    ∀ {xs : List α} {ys : List β}, List.Forall₂ P xs ys → (∀ x y, P x y → y = f x) → ys = xs.map f
  | _, _, .nil, _ => rfl
  | _, _, .cons h hs, hP => by rw [List.map_cons, hP _ _ h, eq_map_of_forall₂ hs hP]

theorem runAll_levels (hset : LevelsSettled c store sorted) {ids : List EventId} (hnd : ids.Nodup)
    (hids : ∀ x, x ∈ ids ↔ sorted x) (schedule : List Nat) :
    (Prog.runAll schedule (ids.map (getPowerLevelForSender c store none)) .empty).1 = ids.map (citedLevel c store) ∧
      CachesFull c store sorted
        (Prog.runAll schedule (ids.map (getPowerLevelForSender c store none)) .empty).2 := by
  have hpool : Prog.PoolGuarded (CachesSound c store sorted) (LookupRely store sorted)
    (LookupGuarantee store sorted)
      (fun x level s => level = citedLevel c store x ∧ LeftEntries store x s) ids
      (ids.map (getPowerLevelForSender c store none)) .empty := by
    refine List.forall₂_map_right_iff.mpr (List.forall₂_same.mpr fun x hx => ?_)
    exact getPowerLevelForSender_guarded hset ((hids x).mp hx) fun id hid => by simp [PlCaches.empty] at hid
  obtain ⟨hI, hf⟩ := Prog.runAll_guarded lookupRely_refl lookupRely_trans (lookups_compatible hnd) schedule
    (cachesSound_empty sorted) hpool
  refine ⟨eq_map_of_forall₂ hf fun x level h => h.1, hI, fun x hx => ?_⟩
  obtain ⟨hlen, hall⟩ := List.forall₂_iff_get.mp hf
  obtain ⟨i, hi, rfl⟩ := List.getElem_of_mem ((hids x).mpr hx)
  exact (hall i hi (hlen ▸ hi)).2

end

end

end Congruent
