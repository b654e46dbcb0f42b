import Congruent.Escalation

/-!
# Changes of power levels

A power-levels event whose changes are all within the reach of its sender. The
loops over `users`, `events` and the notifications skip what is equal; the loop over
the top-level levels does not, so one that stays above the sender's level rejects
the event.
-/

namespace Congruent

def Codec.ReadsBack (c : Codec) : Prop :=
  ∀ pl, ∀ p ∈ topLevels, ∀ w n, (c.powerLevelsToValue pl).get p.1 = some w → c.int w = .ok n → n = p.2 pl

def WrittenOut (c : Codec) (name : String) (pl : RoomPowerLevelsEventContent) : Prop :=
  ∃ w n, (c.powerLevelsToValue pl).get name = some w ∧ c.int w = .ok n

section
variable {c : Codec} {v : RoomVersion} {sender : UserId} {L : Int} {creators : List UserId}
  {old new : RoomPowerLevelsEventContent}

theorem Codec.KeepsLevels.readsBack (h : c.KeepsLevels) : c.ReadsBack := by
  intro pl p hp w n hw hn
  obtain ⟨w', hw', hn'⟩ := h pl p hp
  obtain rfl : w' = w := Option.some.inj (hw'.symm.trans hw)
  exact Except.ok.inj (hn.symm.trans hn')

theorem decoded_iff {w : Value} {n : Int} : (c.int w).toOption = some n ↔ c.int w = .ok n := by
  cases c.int w <;> simp [Except.toOption]

theorem getDeserializeLevels_iff (hc : c.ReadsBack) {p : String × (RoomPowerLevelsEventContent → Int)}
    (hp : p ∈ topLevels) (o n : Int) :
    getDeserializeLevels c (c.powerLevelsToValue old) (c.powerLevelsToValue new) p.1 = some (o, n) ↔
      (WrittenOut c p.1 old ∧ WrittenOut c p.1 new) ∧ o = p.2 old ∧ n = p.2 new := by
  simp only [getDeserializeLevels, Option.bind_eq_bind, Option.bind_eq_some_iff, decoded_iff, Option.some.injEq,
    Prod.mk.injEq]
  constructor
  · rintro ⟨wo, ho, o, hdo, wn, hn, n, hdn, rfl, rfl⟩
    exact ⟨⟨⟨wo, o, ho, hdo⟩, wn, n, hn, hdn⟩, hc old p hp wo o ho hdo, hc new p hp wn n hn hdn⟩
  · rintro ⟨⟨⟨wo, o', ho, hdo⟩, wn, n', hn, hdn⟩, rfl, rfl⟩
    obtain rfl := hc old p hp wo o' ho hdo
    obtain rfl := hc new p hp wn n' hn hdn
    exact ⟨wo, ho, _, hdo, wn, hn, _, hdn, rfl, rfl⟩

theorem topLevelOk_iff (hc : c.ReadsBack) {p : String × (RoomPowerLevelsEventContent → Int)} (hp : p ∈ topLevels) :
    topLevelOk c L (c.powerLevelsToValue old) (c.powerLevelsToValue new) p.1 = true ↔
      (WrittenOut c p.1 old → WrittenOut c p.1 new → p.2 old ≤ L ∧ p.2 new ≤ L) := by
  have hread := fun o n => (getDeserializeLevels_iff hc hp o n :
    getDeserializeLevels c (c.powerLevelsToValue old) (c.powerLevelsToValue new) p.1 = some (o, n) ↔ _)
  unfold topLevelOk
  cases hl : getDeserializeLevels c (c.powerLevelsToValue old) (c.powerLevelsToValue new) p.1 with
  | none =>
    refine iff_of_true rfl fun ho hn => ?_
    rw [(hread _ _).mpr ⟨⟨ho, hn⟩, rfl, rfl⟩] at hl
    cases hl
  | some l =>
    obtain ⟨⟨ho, hn⟩, hlo, hln⟩ := (hread l.1 l.2).mp hl
    simp [ho, hn, hlo, hln]

theorem NoEscalation.loops (h : NoEscalation v (· ∈ creators) sender L old new) :
    (∀ user ∈ (old.users.keys ++ new.users.keys).dedup,
      userLevelOk creators sender user L (old.users.lookup user) (new.users.lookup user) = true) ∧
    (∀ kind ∈ (old.events.keys ++ new.events.keys).dedup,
      eventLevelOk L (old.events.lookup kind) (new.events.lookup kind) = true) ∧
    (v.limitNotificationsPowerLevels = false ∨
      notificationsOk L old.notificationsRoom new.notificationsRoom = true) := by
  refine ⟨fun user _ => userLevelOk_iff.mpr fun hx hne => ?_, fun kind _ => eventLevelOk_iff.mpr
    (h.events kind), ?_⟩
  · obtain ⟨ho, hn⟩ := h.users user hx hne
    exact ⟨ho, hn, fun hs hl => hne (hl.trans (h.equals user hx hs hl).symm)⟩
  · cases hv : v.limitNotificationsPowerLevels with
    | false => exact Or.inl rfl
    | true =>
      right
      unfold notificationsOk
      split
      · rename_i hne
        obtain ⟨ho, hn⟩ := h.notifications hv hne
        simp [ho, hn]
      · rfl

theorem levelChangesOk_iff (hc : c.ReadsBack) (h : NoEscalation v (· ∈ creators) sender L old new) :
    levelChangesOk c v sender L creators old new = true ↔
      ∀ p ∈ topLevels, p.2 old = p.2 new → WrittenOut c p.1 old → WrittenOut c p.1 new → p.2 old ≤ L := by
  obtain ⟨hu, he, hn⟩ := h.loops
  unfold levelChangesOk
  simp only [Bool.and_eq_true, List.all_eq_true, Bool.or_eq_true, Bool.not_eq_true', hn, and_true]
  rw [and_iff_right ⟨hu, he⟩, levelNames_eq, List.forall_mem_map]
  refine forall₂_congr fun p hp => ?_
  rw [topLevelOk_iff hc hp]
  constructor
  · exact fun hl _ ho hn => (hl ho hn).1
  · intro hl ho hn
    by_cases heq : p.2 old = p.2 new
    · exact ⟨hl heq ho hn, heq ▸ hl heq ho hn⟩
    · exact h.top p hp heq

end

/-- A change within the reach of its sender is accepted just when no top-level level
that stays is above the sender's. -/
theorem check_power_levels_unchanged_iff {c : Codec} (hc : c.ReadsBack) {v : RoomVersion}
    {ev previous : Pdu} {L : Int}
    {creators : List UserId} {old new : RoomPowerLevelsEventContent} (hkey : ev.stateKey = some "")
    (hold : deserializePowerLevels c previous.content v = some old)
    (hnew : deserializePowerLevels c ev.content v = some new)
    (hchange : NoEscalation v (· ∈ creators) ev.sender L old new) :
    checkPowerLevels c v ev (some previous) L creators = some true ↔
      ∀ p ∈ topLevels, p.2 old = p.2 new → WrittenOut c p.1 old → WrittenOut c p.1 new → p.2 old ≤ L := by
  rw [← levelChangesOk_iff hc hchange]
  simp [checkPowerLevels, hkey, hold, hnew]

/-! ## A moderator in a room with a high ban level -/

/-- A power-levels event of a room where bans need a level of `ban` and @bob:a has 50. -/
def banLevels (id : EventId) (ban : Int) (users : Object) : Pdu :=
  stateEvent id "@bob:a" .roomPowerLevels "" [("ban", .num ban), ("users", .obj users)] ["$create"]

def banRoom (ban : Int) : EventType → StateKey → Option Pdu
  | .roomPowerLevels, "" => some (banLevels "$pl" ban [("@bob:a", .num 50)])
  | .roomMember, "@bob:a" => some bobJoined
  | _, _ => none

/-- What the moderator changes: @eve:a gets 10. -/
def evesEntry : Object := [("@bob:a", .num 50), ("@eve:a", .num 10)]

/-- Where bans need 40 the change is accepted. -/
theorem check_power_levels_unchanged_low : checkPowerLevels .plain .V10 (banLevels "$new" 40 evesEntry)
    (some (banLevels "$pl" 40 [("@bob:a", .num 50)])) 50 [] = some true := by
  refine (check_power_levels_unchanged_iff plain_keepsLevels.readsBack rfl rfl rfl ?_).mpr ?_
  · exact loops_noEscalation (by decide) (by decide) (by decide) (by decide)
  · refine fun p hp _ _ _ => (?_ : ∀ p ∈ topLevels, p.2 _ ≤ 50) p hp
    decide

/-- Where bans need 60, before and after, the same change is rejected. -/
theorem unchanged_ban_rejects : ∃ old new,
    deserializePowerLevels .plain (banLevels "$pl" 60 [("@bob:a", .num 50)]).content .V10 = some old ∧
      deserializePowerLevels .plain (banLevels "$new" 60 evesEntry).content .V10 = some new ∧
      old.ban = 60 ∧ new.ban = 60 ∧ NoEscalation .V10 (· ∈ ([] : List UserId)) "@bob:a" 50 old new ∧
      checkPowerLevels .plain .V10 (banLevels "$new" 60 evesEntry)
        (some (banLevels "$pl" 60 [("@bob:a", .num 50)])) 50
        [] = some false ∧
      authCheck .plain .V10 (banLevels "$new" 60 evesEntry) none (banRoom 60) roomCreated = .ok false := by
  refine ⟨_, _, rfl, rfl, rfl, rfl, ?_, by decide, by decide⟩
  exact loops_noEscalation (by decide) (by decide) (by decide) (by decide)

end Congruent
