import Mathlib.Data.String.Basic
import Congruent.MemoisedLevel
import Congruent.SelectedState
import Congruent.SenderPower

/-!
# The levels of the two resolvers

The resolver in use takes the level of a sender from `sender_power_level_from_auth`, the
reference resolver from `get_power_level_for_sender`. Both look at what the event cites:
when they come to the same level.
-/

namespace Congruent

open LeanEvents

/-! ## Reading power levels twice -/

namespace Object

theorem mem_distinct : ∀ {o : Object} {p : String × Value}, p ∈ distinct o ↔ o.get p.1 = some p.2
  | [], p => by simp [distinct, get]
  | q :: o, p => by
    unfold distinct
    rw [List.mem_cons, List.mem_filter, mem_distinct]
    unfold get
    rw [List.lookup_cons]
    by_cases h : p.1 = q.1
    · simp only [h, beq_self_eq_true, Option.some.injEq, ne_eq, not_true, decide_false,
        Bool.false_eq_true, and_false,
        or_false]
      exact ⟨fun hp => by rw [hp], fun hp => Prod.ext h hp.symm⟩
    · have hne : p ≠ q := fun hp => h (congrArg Prod.fst hp)
      simp [h, hne, beq_false_of_ne h]

theorem distinct_keys : ∀ o : Object, (distinct o).Pairwise fun p q => p.1 ≠ q.1
  | [] => List.Pairwise.nil
  | q :: o => by
    unfold distinct
    refine List.pairwise_cons.mpr ⟨fun p hp => ?_, (distinct_keys o).filter _⟩
    have hne := (List.mem_filter.mp hp).2
    exact fun heq => of_decide_eq_true hne heq.symm

theorem mem_iter {o : Object} {p : String × Value} : p ∈ iter o ↔ o.get p.1 = some p.2 := by
  unfold iter
  rw [List.mem_insertionSort, mem_distinct]

theorem iter_sorted (o : Object) : (iter o).Pairwise fun p q => p.1 < q.1 := by
  have hle : (iter o).Pairwise fun p q => p.1 ≤ q.1 := List.pairwise_insertionSort _ _
  have hne : (iter o).Pairwise fun p q => p.1 ≠ q.1 :=
    ((List.perm_insertionSort _ _).pairwise_iff fun h => Ne.symm h).mpr (distinct_keys o)
  exact (hle.and hne).imp fun h => lt_of_le_of_ne h.1 h.2

end Object

theorem level_legacy {v : Value} {n : Int} : level v .legacy = .ok n ↔ parseIntlike v = some n := by
  unfold level parseIntlike
  cases v.asI64.or (v.asStr.bind parseInt) <;> simp

theorem levelOr_legacy {content : Value} {key : String} {default n : Int}
    (h : levelOr content key default .legacy = .ok n) : ((content.get key).bind parseIntlike).getD default = n := by
  unfold levelOr at h
  cases hv : content.get key with
  | none =>
    rw [hv] at h
    exact Except.ok.inj h
  | some v =>
    rw [hv] at h
    simp [level_legacy.mp h]

section
variable {c : Codec} (hparse : ∀ k u, c.parseUserId k = some u → u = k)

include hparse in
theorem readUsers_eq : ∀ {entries : List (String × Value)} {us : List (UserId × Int)},
    readUsers c entries = .ok us → us = entries.filterMap fun p => (parseIntlike p.2).map fun n => (p.1, n)
  | [], us, h => by
    cases h
    rfl
  | (user, value) :: rest, us, h => by
    unfold readUsers at h
    cases hu : c.parseUserId user with
    | none =>
      rw [hu] at h
      cases h
    | some u =>
      rw [hu] at h
      obtain ⟨n, hn, h⟩ := bind_eq_ok.mp h
      obtain ⟨us', hus, h⟩ := bind_eq_ok.mp h
      cases h
      rw [List.filterMap_cons, level_legacy.mp hn, ← readUsers_eq hus, hparse user u hu]
      rfl

theorem getUserPower_eq_some {fields : PowerLevelsContentFields} (hs : fields.users.Pairwise fun p q => p.1 < q.1)
    {user : UserId} {n : Int} : fields.getUserPower user = some n ↔ (user, n) ∈ fields.users := by
  have hfind := fun i => @binarySearchBy_eq_some _ _ _ _ _ user hs i
  unfold PowerLevelsContentFields.getUserPower
  cases h : binarySearchBy (fun item => compare item.1 user) fields.users with
  | none =>
    refine iff_of_false (fun hno => by cases hno) fun hmem => ?_
    obtain ⟨i, hi, hget⟩ := List.mem_iff_getElem.mp hmem
    have hsome := (hfind i).mpr ⟨hi, by rw [hget]⟩
    rw [h] at hsome
    cases hsome
  | some i =>
    obtain ⟨hi, hkey⟩ := (hfind i).mp h
    simp only [List.getElem?_eq_getElem hi, Option.map_some, Option.some.injEq]
    constructor
    · rintro rfl
      rw [← hkey]
      exact List.getElem_mem hi
    · intro hmem
      obtain ⟨j, hj, hget⟩ := List.mem_iff_getElem.mp hmem
      have hsome := (hfind j).mpr ⟨hj, by rw [hget]⟩
      rw [h] at hsome
      cases hsome
      rw [hget]

include hparse in
theorem users_sorted {content : Value} {us : List (UserId × Int)} (h : users c content = .ok us) :
    us.Pairwise fun p q => p.1 < q.1 := by
  unfold users at h
  cases hu : content.get "users" with
  | none =>
    rw [hu] at h
    cases h
    exact List.Pairwise.nil
  | some value =>
    rw [hu] at h
    cases ho : value.asObject with
    | none =>
      simp only [ho] at h
      cases h
    | some o =>
      simp only [ho] at h
      rw [readUsers_eq hparse h]
      refine (Object.iter_sorted o).filterMap _ fun p q hpq p' hp' q' hq' => ?_
      obtain ⟨n, -, rfl⟩ := Option.map_eq_some_iff.mp hp'
      obtain ⟨m, -, rfl⟩ := Option.map_eq_some_iff.mp hq'
      exact hpq

include hparse in
theorem users_power {content : Value} {us : List (UserId × Int)} (h : users c content = .ok us) (default : Int)
    (user : UserId) :
    PowerLevelsContentFields.getUserPower ⟨us, default⟩ user =
      ((content.get "users").bind Value.asObject).bind fun o => (o.get user).bind parseIntlike := by
  have hsorted := users_sorted hparse h
  unfold users at h
  cases hu : content.get "users" with
  | none =>
    rw [hu] at h
    cases h
    rfl
  | some value =>
    rw [hu] at h
    cases ho : value.asObject with
    | none =>
      simp only [ho] at h
      cases h
    | some o =>
      simp only [ho] at h
      have hus := readUsers_eq hparse h
      refine Option.ext fun n => ?_
      rw [getUserPower_eq_some hsorted, hus]
      simp only [List.mem_filterMap, Object.mem_iter, Option.bind_some, ho, Option.bind_eq_some_iff,
        Option.map_eq_some_iff, Prod.mk.injEq]
      constructor
      · rintro ⟨⟨u, v⟩, hv, m, hm, rfl, rfl⟩
        exact ⟨v, hv, hm⟩
      · rintro ⟨v, hv, hm⟩
        exact ⟨(user, v), hv, n, hm, rfl, rfl⟩

include hparse in
theorem parse_level {content : Value} {fields : PowerLevelsContentFields}
    (h : PowerLevelsContentFields.parse c content = .ok fields) (user : UserId) :
    (fields.getUserPower user).getD fields.usersDefault = levelOf content user := by
  obtain ⟨o, ho, h⟩ := bind_eq_ok.mp h
  obtain ⟨us, hus, h⟩ := bind_eq_ok.mp h
  obtain ⟨default, hdefault, h⟩ := bind_eq_ok.mp h
  cases h
  rw [← Value.object_eq_ok ho] at hus hdefault
  rw [users_power hparse hus]
  unfold levelOf
  rw [Option.getD_or, levelOr_legacy hdefault]

include hparse in
theorem parsedFields_level (pl : Pdu) (user : UserId) :
    ((parsedFields c pl).getUserPower user).getD (parsedFields c pl).usersDefault =
      if (PowerLevelsContentFields.parse c pl.content).toOption.isSome then levelOf pl.content user else 0 := by
  unfold parsedFields
  cases h : PowerLevelsContentFields.parse c pl.content with
  | ok fields => exact parse_level hparse h user
  | error e => rfl

end

/-! ## What each resolver does with the create event -/

section
variable (c : Codec)

/-- Whether the resolver in use takes the user for a creator, where the version privileges
creators. -/
def namesCreator (create : Pdu) (user : UserId) : Bool :=
  create.sender = user ||
    (c.roomCreate create.content).toOption.any fun content => (content.additionalCreators.getD []).contains user

/-- Whether it does before, without power levels. -/
def namesFirstCreator (create : Pdu) (user : UserId) : Bool :=
  create.sender = user ||
    (c.roomCreate create.content).toOption.any fun content => decide (content.creator = some user)

variable (privileged : Bool) (store : EventStore) (ev : Pdu)

/-- The resolver in use gives the sender the maximal level, whatever the power levels. -/
def exalted : Bool :=
  ev.kind = .roomCreate ||
    privileged && (scannedCreate store.fetch ev.authEvents).any fun create => namesCreator c create ev.sender

def exaltedByReference : Bool :=
  isTypeAndKey ev .roomCreate "" ||
    if (firstPowerLevels store ev.authEvents).isSome then
      createPrivileges c (firstCreate store ev.authEvents) ev.sender
    else (firstCreate store ev.authEvents).any fun create => isRoomCreator c create ev.sender

/-- The resolver in use gives the creator 100 for want of power levels. -/
def fallsBack : Bool :=
  !privileged && (scannedCreate store.fetch ev.authEvents).any fun create => namesFirstCreator c create ev.sender

/-- The reader of the reference accepts the power levels, and the level of the user there is
the maximal one. -/
def GivesMax (pl : Pdu) : Prop :=
  Succeeds (PowerLevelsContentFields.parse c pl.content) ∧ levelOf pl.content ev.sender = intMax

/-- What an event cites leaves the two resolvers no difference. -/
def LevelsAlike : Prop :=
  match exalted c privileged store ev, exaltedByReference c store ev, firstPowerLevels store ev.authEvents with
  | true, true, _ => True
  | true, false, some pl => GivesMax c ev pl
  | true, false, none => False
  | false, true, some pl => levelOf pl.content ev.sender = intMax
  | false, true, none => False
  | false, false, some pl =>
    Succeeds (PowerLevelsContentFields.parse c pl.content) ∨ levelOf pl.content ev.sender = 0
  | false, false, none => fallsBack c privileged store ev = false

end

section
variable {c : Codec} {privileged : Bool} {store : EventStore} {ev : Pdu}

theorem firstPowerLevels_eq (store : EventStore) (ids : List EventId) :
    firstPowerLevels store ids = firstOf store.fetch .roomPowerLevels ids := rfl

theorem powerLevel_some (create : Pdu) (level : Option Int) (sender : UserId) :
    Found.powerLevel c privileged sender ⟨some create, level⟩ =
      if privileged then if namesCreator c create sender then intMax else level.getD 0
      else level.getD (if namesFirstCreator c create sender then 100 else 0) := by
  cases privileged <;> cases level <;> rfl

theorem senderPowerLevelFromAuth_eq :
    senderPowerLevelFromAuth c privileged ev store.fetch =
      if exalted c privileged store ev then intMax
      else match firstPowerLevels store ev.authEvents with
        | some pl => levelOf pl.content ev.sender
        | none => if fallsBack c privileged store ev then 100 else 0 := by
  unfold senderPowerLevelFromAuth exalted fallsBack
  by_cases hkind : ev.kind = .roomCreate
  · simp [hkind]
  rw [if_neg hkind, scanAuth_eq, ← firstPowerLevels_eq]
  cases scannedCreate store.fetch ev.authEvents with
  | none => cases firstPowerLevels store ev.authEvents <;> simp [Found.powerLevel, hkind]
  | some create =>
    rw [powerLevel_some]
    cases privileged with
    | true =>
      by_cases hc : namesCreator c create ev.sender = true
      · simp [hc]
      · cases firstPowerLevels store ev.authEvents <;> simp [hkind, hc]
    | false => cases firstPowerLevels store ev.authEvents <;> simp [hkind]

theorem citedLevel_eq (hparse : ∀ k u, c.parseUserId k = some u → u = k) {id : EventId}
    (hf : store.fetch id = some ev) :
    citedLevel c store id =
      if exaltedByReference c store ev then intMax
      else match firstPowerLevels store ev.authEvents with
        | some pl =>
          if (PowerLevelsContentFields.parse c pl.content).toOption.isSome then levelOf pl.content ev.sender else 0
        | none => 0 := by
  unfold citedLevel exaltedByReference
  rw [hf]
  by_cases hc : isTypeAndKey ev .roomCreate "" = true
  · simp [hc]
  cases hpl : firstPowerLevels store ev.authEvents with
  | some pl =>
    have hread := parsedFields_level hparse pl ev.sender
    by_cases hp : createPrivileges c (firstCreate store ev.authEvents) ev.sender = true
    · simp [hc, hpl, levelUnder, hp]
    · simp [hc, hpl, levelUnder, hp, hread]
  | none =>
    cases hcr : firstCreate store ev.authEvents with
    | none => simp [hc, hpl, hcr]
    | some create => simp [hc, hpl, hcr]

theorem isSome_toOption {ε α : Type} {x : Except ε α} : x.toOption.isSome = true ↔ Succeeds x := by
  cases x with
  | ok a => exact iff_of_true rfl ⟨a, rfl⟩
  | error e => exact iff_of_false (fun h => by cases h) fun ⟨a, h⟩ => by cases h

theorem reference_level {id : EventId} :
    ((getPowerLevelForSender c store none id).run PlCaches.empty).1 = citedLevel c store id := by
  have hrun := (LevelCall.run_spec (@cachesAfter_empty c store) (clear_nil c store ⟨none, id⟩)).1
  rw [levelIn_none] at hrun
  exact hrun

/-- The two resolvers come to the same level of the sender of an event just where what it
cites leaves no difference. -/
theorem sender_levels_agree_iff (hparse : ∀ k u, c.parseUserId k = some u → u = k) (version : StateResVersion)
    {id : EventId} (hf : store.fetch id = some ev) :
    senderPowerLevelFromAuth c version.explicitlyPrivilegeRoomCreators ev store.fetch =
        ((getPowerLevelForSender c store none id).run PlCaches.empty).1 ↔
      LevelsAlike c version.explicitlyPrivilegeRoomCreators store ev := by
  rw [reference_level, senderPowerLevelFromAuth_eq, citedLevel_eq hparse hf]
  unfold LevelsAlike GivesMax
  generalize version.explicitlyPrivilegeRoomCreators = privileged
  cases exalted c privileged store ev with
  | true =>
    cases exaltedByReference c store ev with
    | true => simp
    | false =>
      cases firstPowerLevels store ev.authEvents with
      | none => simp [intMax]
      | some pl =>
        by_cases hread : Succeeds (PowerLevelsContentFields.parse c pl.content)
        · simp [isSome_toOption.mpr hread, hread, eq_comm]
        · simp [mt isSome_toOption.mp hread, hread, intMax]
  | false =>
    cases exaltedByReference c store ev with
    | true =>
      cases firstPowerLevels store ev.authEvents with
      | none => cases fallsBack c privileged store ev <;> simp [intMax]
      | some pl => simp
    | false =>
      cases firstPowerLevels store ev.authEvents with
      | none => cases fallsBack c privileged store ev <;> simp
      | some pl =>
        by_cases hread : Succeeds (PowerLevelsContentFields.parse c pl.content)
        · simp [isSome_toOption.mpr hread, hread]
        · simp [mt isSome_toOption.mp hread, hread]

end

/-! ## Topics of the creator -/

def topicCiting (id : EventId) (authEvents : List EventId) : Pdu :=
  stateEvent id "@alice:a" (.other "m.room.topic") "" [("topic", .str "x")] authEvents

def creatorsLevels : Pdu :=
  stateEvent "$pl" "@alice:a" .roomPowerLevels "" [("users", .obj [("@alice:a", .num 100)])] ["$create", "$alice"]

def topics : EventStore where
  events := [createdBy (.str "@alice:a"), aliceJoins, topicCiting "$first" ["$create", "$alice"], creatorsLevels,
    topicCiting "$second" ["$create", "$pl", "$alice"]]
  nodup := by decide

/-- With power levels the creator has the level there in both. -/
theorem sender_levels_agree_iff_second :
    senderPowerLevelFromAuth .plain (StateResVersion.ofRoomVersion .V10).explicitlyPrivilegeRoomCreators
        (topicCiting "$second" ["$create", "$pl", "$alice"]) topics.fetch =
      ((getPowerLevelForSender .plain topics none "$second").run PlCaches.empty).1 := by
  have hf : topics.fetch "$second" = some (topicCiting "$second" ["$create", "$pl", "$alice"]) := rfl
  refine (sender_levels_agree_iff plain_parses (StateResVersion.ofRoomVersion .V10) hf).mpr ?_
  exact Or.inl ⟨_, rfl⟩

/-- Without power levels the creator has the level 100 in one resolver and the maximal
level in the other, although both take it for the creator. -/
theorem creator_levels_differ :
    senderPowerLevelFromAuth .plain (StateResVersion.ofRoomVersion .V10).explicitlyPrivilegeRoomCreators
        (topicCiting "$first" ["$create", "$alice"]) topics.fetch = 100 ∧
      ((getPowerLevelForSender .plain topics none "$first").run PlCaches.empty).1 = intMax :=
  ⟨by decide, by decide⟩

end Congruent
