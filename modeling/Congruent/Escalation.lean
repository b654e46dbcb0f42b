import Mathlib.Data.List.Dedup
import Congruent.EventAuth

/-!
# No escalation through power levels

An accepted `m.room.power_levels` event changes only levels within the reach of
its sender. The entries of privileged creators in `users` have no effect and are
not compared.
-/

namespace Congruent

/-! ## What an accepted change satisfies -/

/-- An optional level is at most `L`. -/
def AtMost (L : Int) (level : Option Int) : Prop := ∀ n ∈ level, n ≤ L

def topLevels : List (String × (RoomPowerLevelsEventContent → Int)) :=
  [("users_default", (·.usersDefault)), ("events_default", (·.eventsDefault)),
    ("state_default", (·.stateDefault)), ("ban", (·.ban)), ("redact", (·.redact)), ("kick", (·.kick)),
    ("invite", (·.invite))]

def Codec.KeepsLevels (c : Codec) : Prop :=
  ∀ pl, ∀ p ∈ topLevels, ∃ w, (c.powerLevelsToValue pl).get p.1 = some w ∧ c.int w = .ok (p.2 pl)

/-- A sender of level `L` changes no level above its own, and no entry of an
equal; the `users` entries of `exempt` users are left out. -/
structure NoEscalation (v : RoomVersion) (exempt : UserId → Prop) (sender : UserId) (L : Int)
    (old new : RoomPowerLevelsEventContent) : Prop where
  users : ∀ u, ¬ exempt u → old.users.lookup u ≠ new.users.lookup u →
    AtMost L (old.users.lookup u) ∧ AtMost L (new.users.lookup u)
  equals : ∀ u, ¬ exempt u → u ≠ sender → old.users.lookup u = some L → new.users.lookup u = some L
  events : ∀ k, old.events.lookup k ≠ new.events.lookup k →
    AtMost L (old.events.lookup k) ∧ AtMost L (new.events.lookup k)
  notifications : v.limitNotificationsPowerLevels = true → old.notificationsRoom ≠ new.notificationsRoom →
    old.notificationsRoom ≤ L ∧ new.notificationsRoom ≤ L
  top : ∀ p ∈ topLevels, p.2 old ≠ p.2 new → p.2 old ≤ L ∧ p.2 new ≤ L

theorem tooBig_eq_false {level : Option Int} {L : Int} : tooBig level L = false ↔ AtMost L level := by
  cases level <;> simp [tooBig, AtMost]

theorem mem_keys_of_ne {K : Type} [DecidableEq K] {a b : BTreeMap K Int} {k : K}
    (h : a.lookup k ≠ b.lookup k) : k ∈ (a.keys ++ b.keys).dedup := by
  by_contra hk
  simp only [List.mem_dedup, List.mem_append, ← AList.mem_keys, not_or, ← AList.lookup_eq_none] at hk
  exact h (hk.1.trans hk.2.symm)

theorem userLevelOk_iff {creators : List UserId} {sender user : UserId} {L : Int} {old new : Option Int} :
    userLevelOk creators sender user L old new = true ↔
      (user ∉ creators → old ≠ new → AtMost L old ∧ AtMost L new ∧ (user ≠ sender → old ≠ some L)) := by
  unfold userLevelOk
  by_cases heq : old = new
  · subst heq
    cases old <;> simp [tooBig]
  by_cases hc : user ∈ creators
  · simp [hc]
  simp only [heq, decide_false, Bool.and_false, Bool.false_eq_true, if_false, hc, ne_eq, not_false_eq_true,
    forall_const]
  by_cases h2 : user ≠ sender ∧ old = some L
  · simp [h2.1, h2.2]
  · rw [if_neg (by simpa using h2), Bool.and_eq_true, Bool.not_eq_true', Bool.not_eq_true', tooBig_eq_false,
      tooBig_eq_false]
    rw [not_and] at h2
    exact ⟨fun h => ⟨h.1, h.2, h2⟩, fun h => ⟨h.1, h.2.1⟩⟩

theorem eventLevelOk_iff {L : Int} {old new : Option Int} :
    eventLevelOk L old new = true ↔ (old ≠ new → AtMost L old ∧ AtMost L new) := by
  unfold eventLevelOk
  by_cases heq : old = new
  · subst heq
    cases old <;> simp [tooBig]
  · simp [heq, tooBig_eq_false]

theorem loops_noEscalation {v : RoomVersion} {sender : UserId} {L : Int} {creators : List UserId}
    {old new : RoomPowerLevelsEventContent}
    (hu : ∀ user ∈ (old.users.keys ++ new.users.keys).dedup,
      userLevelOk creators sender user L (old.users.lookup user) (new.users.lookup user) = true)
    (he : ∀ kind ∈ (old.events.keys ++ new.events.keys).dedup,
      eventLevelOk L (old.events.lookup kind) (new.events.lookup kind) = true)
    (hn : v.limitNotificationsPowerLevels = false ∨ notificationsOk L old.notificationsRoom
      new.notificationsRoom = true)
    (ht : ∀ p ∈ topLevels, p.2 old ≠ p.2 new → p.2 old ≤ L ∧ p.2 new ≤ L) :
    NoEscalation v (· ∈ creators) sender L old new := by
  refine ⟨fun u hx hne => ?_, fun u hx hs ho => ?_, fun k hne => ?_, fun hv hne => ?_, ht⟩
  · have := userLevelOk_iff.mp (hu u (mem_keys_of_ne hne)) hx hne
    exact ⟨this.1, this.2.1⟩
  · by_contra hnew
    have hne : old.users.lookup u ≠ new.users.lookup u := by rw [ho]; exact Ne.symm hnew
    exact (userLevelOk_iff.mp (hu u (mem_keys_of_ne hne)) hx hne).2.2 hs ho
  · exact eventLevelOk_iff.mp (he k (mem_keys_of_ne hne)) hne
  · have hn := hn.resolve_left (by simp [hv])
    simpa [notificationsOk, hne] using hn

theorem topLevelOk_le {c : Codec} (hc : c.KeepsLevels) {L : Int} {old new : RoomPowerLevelsEventContent}
    {p : String × (RoomPowerLevelsEventContent → Int)} (hp : p ∈ topLevels)
    (h : topLevelOk c L (c.powerLevelsToValue old) (c.powerLevelsToValue new) p.1 = true) :
    p.2 old ≤ L ∧ p.2 new ≤ L := by
  obtain ⟨w, hw, hi⟩ := hc old p hp
  obtain ⟨w', hw', hi'⟩ := hc new p hp
  have hl : getDeserializeLevels c (c.powerLevelsToValue old) (c.powerLevelsToValue new) p.1 =
      some (p.2 old, p.2 new) := by
    simp [getDeserializeLevels, hw, hw', hi, hi', Except.toOption]
  unfold topLevelOk at h
  rw [hl] at h
  simpa using h

theorem levelNames_eq : levelNames = topLevels.map Prod.fst := rfl

theorem levelChangesOk_noEscalation {c : Codec} (hc : c.KeepsLevels) {v : RoomVersion} {sender : UserId} {L : Int}
    {creators : List UserId} {old new : RoomPowerLevelsEventContent}
    (h : levelChangesOk c v sender L creators old new = true) :
    NoEscalation v (· ∈ creators) sender L old new := by
  unfold levelChangesOk at h
  simp only [Bool.and_eq_true, List.all_eq_true, Bool.or_eq_true, Bool.not_eq_true'] at h
  obtain ⟨⟨⟨hu, he⟩, hn⟩, ht⟩ := h
  refine loops_noEscalation hu he hn fun p hp _ => topLevelOk_le hc hp (ht p.1 ?_)
  rw [levelNames_eq]
  exact List.mem_map_of_mem hp

/-! ## From the authorization rules to the comparison -/

section
variable {c : Codec} {v : RoomVersion} {create : Pdu} {createContent : RoomCreateContentFields}

theorem mem_decodeCreators : ∀ {vs : List Value} {us : List UserId}, decodeCreators c vs = .ok us →
    ∀ u, u ∈ us ↔ (vs.any (decodesTo c u)) = true
  | [], us, h, u => by cases h; simp
  | w :: vs, us, h, u => by
    simp only [decodeCreators, bind_eq_ok, liftDe_eq_ok, Except.ok.injEq] at h
    obtain ⟨u', hu', rest, hr, rfl⟩ := h
    rw [List.mem_cons, List.any_cons, Bool.or_eq_true, ← mem_decodeCreators hr u]
    simp [decodesTo, hu', @eq_comm _ u' u]

theorem mem_powerLevelCreators {us : List UserId} (h : powerLevelCreators c v create createContent = .ok us)
    (u : UserId) :
    u ∈ us ↔ v.explicitlyPrivilegeRoomCreators = true ∧ isPrivilegedCreator c create createContent u = true := by
  unfold powerLevelCreators at h
  by_cases hv : v.explicitlyPrivilegeRoomCreators = true
  · rw [if_pos hv] at h
    simp only [bind_eq_ok, Except.ok.injEq] at h
    obtain ⟨rest, hr, rfl⟩ := h
    simp [isPrivilegedCreator, hv, mem_decodeCreators hr u]
  · rw [if_neg hv] at h
    cases h
    simp [hv]

theorem powerCheck_powerLevels {ev : Pdu} {powerLevels : Option Pdu} (hk : ev.kind = .roomPowerLevels)
    (h : powerCheck c v ev powerLevels create createContent = .ok true) :
    ∃ L us, senderPowerLevel c v powerLevels create createContent ev.sender = .ok L ∧
      powerLevelCreators c v create createContent = .ok us ∧
      checkPowerLevels c v ev powerLevels L us = some true := by
  simp only [powerCheck, bind_eq_ok] at h
  obtain ⟨L, hL, h⟩ := h
  rw [if_neg (by simp [hk])] at h
  split at h
  · cases h
  simp only [powerLevelsCheck, hk, if_true, bind_eq_ok] at h
  obtain ⟨ok, ⟨us, hus, hok⟩, h⟩ := h
  refine ⟨L, us, hL, hus, ?_⟩
  cases hcp : checkPowerLevels c v ev powerLevels L us with
  | none => simp [hcp] at hok; subst hok; simp at h
  | some b => simp [hcp] at hok; subst hok; cases b <;> simp at h ⊢

theorem authCheck_powerCheck {ev : Pdu} {tpi : Option Pdu} {fetchState : EventType → StateKey → Option Pdu}
    (hk : ev.kind = .roomPowerLevels) (h : authCheck c v ev tpi fetchState create = .ok true) :
    ∃ createContent, RoomCreateContentFields.parse create.content = .ok createContent ∧
      powerCheck c v ev (fetchState .roomPowerLevels "") create createContent = .ok true := by
  unfold authCheck at h
  rw [if_neg (by simp [hk])] at h
  simp only [bind_eq_ok, liftDe_eq_ok] at h
  obtain ⟨createContent, hcc, h⟩ := h
  refine ⟨createContent, hcc, ?_⟩
  split at h
  · cases h
  rw [if_neg (by simp [hk]), if_neg (by simp [hk])] at h
  obtain ⟨joined, -, h⟩ := bind_eq_ok.mp h
  cases joined
  · simp at h
  · simpa using h

theorem checkPowerLevels_some {ev pl : Pdu} {L : Int} {us : List UserId}
    (h : checkPowerLevels c v ev (some pl) L us = some true) :
    ∃ old new, deserializePowerLevels c pl.content v = some old ∧
      deserializePowerLevels c ev.content v = some new ∧ levelChangesOk c v ev.sender L us old new = true := by
  unfold checkPowerLevels at h
  split at h
  · cases h
  split at h
  · cases h
  rename_i new hnew
  simp only at h
  split at h
  · cases h
  rename_i old hold
  exact ⟨old, new, hold, hnew, by simpa using h⟩

end

/-- An accepted power-levels event over a state that holds one changes no level
above its sender's, except entries of privileged creators. -/
theorem powerLevels_noEscalation (c : Codec) (hc : c.KeepsLevels) (v : RoomVersion) (ev pl create : Pdu)
    (tpi : Option Pdu) (fetchState : EventType → StateKey → Option Pdu) (hk : ev.kind = .roomPowerLevels)
    (hpl : fetchState .roomPowerLevels "" = some pl)
    (h : authCheck c v ev tpi fetchState create = .ok true) :
    ∃ createContent L old new, RoomCreateContentFields.parse create.content = .ok createContent ∧
      senderPowerLevel c v (some pl) create createContent ev.sender = .ok L ∧
      deserializePowerLevels c pl.content v = some old ∧ deserializePowerLevels c ev.content v = some new ∧
      NoEscalation v
        (fun u => v.explicitlyPrivilegeRoomCreators = true ∧ isPrivilegedCreator c create createContent u = true)
        ev.sender L old new := by
  obtain ⟨createContent, hcc, hp⟩ := authCheck_powerCheck hk h
  rw [hpl] at hp
  obtain ⟨L, us, hL, hus, hcp⟩ := powerCheck_powerLevels hk hp
  obtain ⟨old, new, hold, hnew, hok⟩ := checkPowerLevels_some hcp
  refine ⟨createContent, L, old, new, hcc, hL, hold, hnew, ?_⟩
  have := levelChangesOk_noEscalation hc hok
  simp only [mem_powerLevelCreators hus] at this
  exact this

/-! ## A room with a creator and a moderator -/

theorem plain_keepsLevels : Codec.plain.KeepsLevels := by
  intro pl p hp
  simp only [topLevels, List.mem_cons, List.not_mem_nil, or_false] at hp
  rcases hp with rfl | rfl | rfl | rfl | rfl | rfl | rfl <;> exact ⟨_, rfl, rfl⟩

def roomCreated : Pdu := stateEvent "$create" "@alice:a" .roomCreate "" [("creator", .str "@alice:a")] []

def bobJoined : Pdu := stateEvent "$bob" "@bob:a" .roomMember "@bob:a" [("membership", .str "join")] []

/-- A power-levels event with the given `users`. -/
def powerLevelsOf (id : EventId) (authEvents : List EventId) (users : Object) : Pdu :=
  stateEvent id "@bob:a" .roomPowerLevels "" [("users", .obj users)] authEvents

def bobsRoom (authEvents : List EventId) : EventType → StateKey → Option Pdu
  | .roomPowerLevels, "" => some (powerLevelsOf "$pl" authEvents [("@bob:a", .num 50)])
  | .roomMember, "@bob:a" => some bobJoined
  | _, _ => none

/-- A moderator promotes another user to its own level. -/
theorem powerLevels_noEscalation_promote :
    authCheck .plain .V10 (powerLevelsOf "$new" ["$create"] [("@bob:a", .num 50), ("@eve:a", .num 50)]) none
        (bobsRoom ["$create"]) roomCreated = .ok true ∧
      ∃ createContent L old new, RoomCreateContentFields.parse roomCreated.content = .ok createContent ∧
        senderPowerLevel .plain .V10 (some (powerLevelsOf "$pl" ["$create"] [("@bob:a", .num 50)])) roomCreated
          createContent "@bob:a" = .ok L ∧
        deserializePowerLevels .plain (.obj [("users", .obj [("@bob:a", .num 50)])]) .V10 = some old ∧
        deserializePowerLevels .plain (.obj [("users", .obj [("@bob:a", .num 50), ("@eve:a", .num 50)])]) .V10 =
          some new ∧
        NoEscalation .V10 (fun u => RoomVersion.V10.explicitlyPrivilegeRoomCreators = true ∧
          isPrivilegedCreator .plain roomCreated createContent u = true) "@bob:a" L old new :=
  have h : authCheck .plain .V10 (powerLevelsOf "$new" ["$create"] [("@bob:a", .num 50), ("@eve:a", .num 50)]) none
      (bobsRoom ["$create"]) roomCreated = .ok true := by decide
  ⟨h, powerLevels_noEscalation .plain plain_keepsLevels .V10
    (powerLevelsOf "$new" ["$create"] [("@bob:a", .num 50), ("@eve:a", .num 50)])
    (powerLevelsOf "$pl" ["$create"] [("@bob:a", .num 50)]) roomCreated none (bobsRoom ["$create"]) rfl rfl h⟩

/-- In a room that privileges creators a moderator of level 50 gives the creator
an entry of 100. -/
theorem powerLevels_creator_entry :
    authCheck .plain .V12 (powerLevelsOf "$new" [] [("@bob:a", .num 50), ("@alice:a", .num 100)]) none
        (bobsRoom []) roomCreated = .ok true ∧
      ∃ createContent old new, RoomCreateContentFields.parse roomCreated.content = .ok createContent ∧
        senderPowerLevel .plain .V12 (bobsRoom [] .roomPowerLevels "") roomCreated createContent "@bob:a" = .ok 50 ∧
        deserializePowerLevels .plain (.obj [("users", .obj [("@bob:a", .num 50)])]) .V12 = some old ∧
        deserializePowerLevels .plain (.obj [("users", .obj [("@bob:a", .num 50), ("@alice:a", .num 100)])]) .V12 =
          some new ∧
        ¬ NoEscalation .V12 (fun _ => False) "@bob:a" 50 old new := by
  refine ⟨by decide, _, _, _, rfl, by decide, rfl, rfl, fun h => ?_⟩
  have := (h.users "@alice:a" id (by decide)).2 100 (by decide)
  exact absurd this (by decide)

end Congruent
