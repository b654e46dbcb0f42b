import Congruent.CreatorUnwrap
import Congruent.LeanEvents
import Congruent.MembershipTable
import Congruent.SenderLevel

/-!
# The level of a sender, from what the event cites

The scan over the auth events of an event (`sender_power_level_from_auth` of
`event_handler/resolve_state.rs`) keeps a create event and the level in the first
power-levels event. The create event is looked for among the auth events, where the
versions that privilege creators forbid it.
-/

namespace Congruent.LeanEvents

/-- The versions of the resolver (`rezzy::StateResVersion`). -/
inductive StateResVersion where
  | V1
  | V2
  | V2_1
  | V2_1_1
  | V2_2
  deriving DecidableEq, Repr

namespace StateResVersion

/-- The version `state_resolution` resolves a room in. -/
def ofRoomVersion : RoomVersionId → StateResVersion
  | .V1 => V1
  | .V2 | .V3 | .V4 | .V5 | .V6 | .V7 | .V8 | .V9 | .V10 | .V11 => V2
  | .V12 => V2_1
  | .custom _ => V2_1_1

/-- Whether `sender_power_level_from_auth` privileges the creators. -/
def explicitlyPrivilegeRoomCreators : StateResVersion → Bool
  | V2_1 | V2_1_1 | V2_2 => true
  | V1 | V2 => false

end StateResVersion

/-! ## The scan -/

section
variable (fetch : EventId → Option Pdu)

def isOf (kind : EventType) (id : EventId) : Bool := (fetch id).any fun ev => isTypeAndKey ev kind ""

def firstOf (kind : EventType) (ids : List EventId) : Option Pdu :=
  ids.findSome? fun id => (fetch id).filter fun ev => isTypeAndKey ev kind ""

/-- The create event a scan keeps: the last one before the power levels, else the first one
after them. -/
def scannedCreate (ids : List EventId) : Option Pdu :=
  (firstOf fetch .roomCreate (ids.takeWhile fun id => !isOf fetch .roomPowerLevels id).reverse).or
    (firstOf fetch .roomCreate (ids.dropWhile fun id => !isOf fetch .roomPowerLevels id))

end

section
variable {fetch : EventId → Option Pdu}

theorem firstOf_cons (kind : EventType) (id : EventId) (ids : List EventId) :
    firstOf fetch kind (id :: ids) =
      ((fetch id).filter fun ev => isTypeAndKey ev kind "").or (firstOf fetch kind ids) :=
  List.findSome?_cons_or _ id ids

theorem firstOf_reverse_cons (kind : EventType) (id : EventId) (ids : List EventId) :
    firstOf fetch kind (id :: ids).reverse =
      (firstOf fetch kind ids.reverse).or ((fetch id).filter fun ev => isTypeAndKey ev kind "") := by
  unfold firstOf
  rw [List.reverse_cons, List.findSome?_append, List.findSome?_singleton]

theorem firstOf_eq_none {kind : EventType} {ids : List EventId} (h : ∀ id ∈ ids, isOf fetch kind id = false) :
    firstOf fetch kind ids = none := by
  unfold firstOf
  rw [List.findSome?_eq_none_iff]
  intro id hid
  have hno := h id hid
  unfold isOf at hno
  cases hf : fetch id with
  | none => rfl
  | some ev =>
    rw [hf, Option.any_some] at hno
    simp [Option.filter, hno]

theorem scannedCreate_none {ids : List EventId} (h : ∀ id ∈ ids, isOf fetch .roomCreate id = false) :
    scannedCreate fetch ids = none := by
  unfold scannedCreate
  rw [firstOf_eq_none fun id hid => h id (List.takeWhile_subset _ (List.mem_reverse.mp hid)),
    firstOf_eq_none fun id hid => h id (List.dropWhile_subset _ hid), Option.or_none]

variable {sender : UserId}

theorem scanAuth_levelled (level : Int) : ∀ (ids : List EventId) (create : Option Pdu),
    scanAuth fetch sender ⟨create, some level⟩ ids = ⟨create.or (firstOf fetch .roomCreate ids), some level⟩
  | [], create => by simp [scanAuth, firstOf]
  | id :: ids, some create => by simp [scanAuth, Found.done]
  | id :: ids, none => by
    unfold scanAuth
    rw [if_neg (by simp [Found.done]), firstOf_cons, Option.none_or]
    cases hf : fetch id with
    | none => simp [Found.note, scanAuth_levelled level ids, Option.filter]
    | some ev =>
      by_cases hc : isTypeAndKey ev .roomCreate "" = true
      · simp [Found.note, scanAuth_levelled level ids, Option.filter, hc]
      · simp [Found.note, scanAuth_levelled level ids, Option.filter, hc]

theorem scanAuth_unlevelled : ∀ (ids : List EventId) (create : Option Pdu),
    scanAuth fetch sender ⟨create, none⟩ ids =
      ⟨(firstOf fetch .roomCreate (ids.takeWhile fun id => !isOf fetch .roomPowerLevels id).reverse).or
          (create.or (firstOf fetch .roomCreate (ids.dropWhile fun id => !isOf fetch .roomPowerLevels id))),
        (firstOf fetch .roomPowerLevels ids).map fun pl => levelOf pl.content sender⟩
  | [], create => by simp [scanAuth, firstOf]
  | id :: ids, create => by
    unfold scanAuth
    rw [if_neg (by simp [Found.done]), firstOf_cons]
    cases hf : fetch id with
    | none =>
      have hno : isOf fetch .roomPowerLevels id = false := by simp [isOf, hf]
      rw [List.takeWhile_cons_of_pos (by simp [hno]), List.dropWhile_cons_of_pos (by simp [hno]),
        firstOf_reverse_cons, hf]
      simp [Found.note, scanAuth_unlevelled ids, Option.filter]
    | some ev =>
      by_cases hp : isTypeAndKey ev .roomPowerLevels "" = true
      · have hc := powerLevels_ne_create hp
        have hyes : isOf fetch .roomPowerLevels id = true := by simp [isOf, hf, hp]
        rw [List.takeWhile_cons_of_neg (by simp [hyes]), List.dropWhile_cons_of_neg (by simp [hyes]), firstOf_cons,
          hf]
        simp [Found.note, Option.filter, hp, hc, scanAuth_levelled, firstOf]
      · have hno : isOf fetch .roomPowerLevels id = false := by simp [isOf, hf, hp]
        rw [List.takeWhile_cons_of_pos (by simp [hno]), List.dropWhile_cons_of_pos (by simp [hno]),
          firstOf_reverse_cons, hf]
        by_cases hc : isTypeAndKey ev .roomCreate "" = true
        · simp [Found.note, Option.filter, hp, hc, scanAuth_unlevelled ids]
        · simp [Found.note, Option.filter, hp, hc, scanAuth_unlevelled ids]

theorem scanAuth_eq (ids : List EventId) :
    scanAuth fetch sender ⟨none, none⟩ ids =
      ⟨scannedCreate fetch ids,
        (firstOf fetch .roomPowerLevels ids).map fun pl => levelOf pl.content sender⟩ := by
  rw [scanAuth_unlevelled, Option.none_or, scannedCreate]

end

/-! ## Creators -/

def CitesCreateAsRuled (v : RoomVersion) (create ev : Pdu) : Prop :=
  ev.kind ≠ .roomCreate → (create.eventId ∈ ev.authEvents ↔ v.roomIdsAsHashes = false)

instance (v : RoomVersion) (create ev : Pdu) : Decidable (CitesCreateAsRuled v create ev) :=
  inferInstanceAs (Decidable (_ → _))

def CreatesRoom (c : Codec) (create : Pdu) (user : UserId) : Prop :=
  ∃ content, RoomCreateContentFields.parse create.content = .ok content ∧
    isPrivilegedCreator c create content user = true

section
variable {c : Codec} {fetch : EventId → Option Pdu} {ev : Pdu}

/-- Without a create event among its auth events an event has the level in the power levels
it cites. -/
theorem senderPowerLevelFromAuth_noCreate (privileged : Bool) (hkind : ev.kind ≠ .roomCreate)
    (hno : ∀ id ∈ ev.authEvents, isOf fetch .roomCreate id = false) :
    senderPowerLevelFromAuth c privileged ev fetch =
      ((firstOf fetch .roomPowerLevels ev.authEvents).map fun pl => levelOf pl.content ev.sender).getD 0 := by
  unfold senderPowerLevelFromAuth
  rw [if_neg hkind, scanAuth_eq, scannedCreate_none hno]
  rfl

/-- Where the version privileges creators, a creator has the maximal level in an event that
obeys the rule only by sending the create event, or by the power levels that the event
cites. -/
theorem creator_level_iff {id : RoomVersionId} {v : RoomVersion} (hv : RoomVersion.new id = .ok v)
    (hp : v.explicitlyPrivilegeRoomCreators = true) {create : Pdu}
    (honly : ∀ x aev, fetch x = some aev → isTypeAndKey aev .roomCreate "" = true → x = create.eventId)
    (hcites : CitesCreateAsRuled v create ev) :
    (CreatesRoom c create ev.sender →
        senderPowerLevelFromAuth c (StateResVersion.ofRoomVersion id).explicitlyPrivilegeRoomCreators ev fetch =
          intMax) ↔
      (CreatesRoom c create ev.sender → ev.kind = .roomCreate ∨
        ∃ pl, firstOf fetch .roomPowerLevels ev.authEvents = some pl ∧ levelOf pl.content ev.sender = intMax) := by
  refine imp_congr_right fun _ => ?_
  by_cases hkind : ev.kind = .roomCreate
  · exact iff_of_true (if_pos hkind) (.inl hkind)
  · have hhashes : v.roomIdsAsHashes = true :=
      (by decide : ∀ v ∈ [RoomVersion.V1, .V2, .V3, .V4, .V5, .V6, .V7, .V8, .V9, .V10, .V11, .V12, .V12_1],
        v.explicitlyPrivilegeRoomCreators = true → v.roomIdsAsHashes = true) v (RoomVersion.new_mem hv) hp
    have hno : ∀ x ∈ ev.authEvents, isOf fetch .roomCreate x = false := by
      intro x hx
      by_contra hof
      rw [Bool.not_eq_false, isOf, Option.any_eq_true] at hof
      obtain ⟨aev, hf, hk⟩ := hof
      have hmem : create.eventId ∈ ev.authEvents := honly x aev hf hk ▸ hx
      rw [hcites hkind, hhashes] at hmem
      cases hmem
    rw [senderPowerLevelFromAuth_noCreate _ hkind hno]
    cases hpl : firstOf fetch .roomPowerLevels ev.authEvents with
    | none => simp [hkind, intMax]
    | some pl => simp [hkind]

end

/-! ## A topic of the creator -/

def creatorJoined : Pdu := memberEvent "@alice:a" "@alice:a" "join" [] ["$create"]

/-- Power levels that leave out the creators, who may not be named there. -/
def othersLevels : Pdu :=
  stateEvent "$pl" "@alice:a" .roomPowerLevels "" [("users", .obj [("@carol:a", .num 50)])] ["$join"]

/-- The creator sets a topic, citing the power levels and its membership. -/
def topicByCreator : Pdu :=
  stateEvent "$topic" "@alice:a" (.other "m.room.topic") "" [("topic", .str "x")] ["$pl", "$join"]

def creatorsEvents : EventId → Option Pdu
  | "$create" => some twoCreators
  | "$join" => some creatorJoined
  | "$pl" => some othersLevels
  | "$topic" => some topicByCreator
  | _ => none

theorem creatorsEvents_create (x : EventId) (aev : Pdu) (h : creatorsEvents x = some aev)
    (hk : isTypeAndKey aev .roomCreate "" = true) : x = twoCreators.eventId := by
  unfold creatorsEvents at h
  split at h
  · rfl
  · cases h
    cases hk
  · cases h
    cases hk
  · cases h
    cases hk
  · cases h

theorem creator_level_iff_topic :
    senderPowerLevelFromAuth .plain (StateResVersion.ofRoomVersion .V12).explicitlyPrivilegeRoomCreators
      topicByCreator creatorsEvents ≠ intMax := by
  have hcites : CitesCreateAsRuled .V12 twoCreators topicByCreator := by decide
  have hcreator : CreatesRoom .plain twoCreators topicByCreator.sender := ⟨_, rfl, by decide⟩
  intro hmax
  have hiff := @creator_level_iff .plain creatorsEvents topicByCreator .V12 .V12 rfl rfl twoCreators
    creatorsEvents_create hcites
  rcases hiff.mp (fun _ => hmax) hcreator with hkind | ⟨pl, hpl, hlevel⟩
  · cases hkind
  · cases hpl
    revert hlevel
    decide

/-- The topic is accepted, and its sender, a creator, has the level 0. -/
theorem creator_level_zero :
    CreatesRoom .plain twoCreators topicByCreator.sender ∧
      authCheck .plain .V12 topicByCreator none (stateOf [creatorJoined, othersLevels]) twoCreators = .ok true ∧
      senderPowerLevelFromAuth .plain (StateResVersion.ofRoomVersion .V12).explicitlyPrivilegeRoomCreators
        topicByCreator creatorsEvents = 0 :=
  ⟨⟨_, rfl, by decide⟩, by decide, by decide⟩

end Congruent.LeanEvents
