import Congruent.Converge

/-!
# The create event a pass of checks keeps

A pass of auth checks keeps the first create event it finds for the events behind, also
when the event it found it for fails. A failed event can be left out when the events behind
it are checked against the same create event without it.
-/

namespace Congruent

section
variable (c : Codec) (store : EventStore) (v : RoomVersion)

/-- The auth state and the create event that an event is checked against, `none` when it is
skipped before its check. -/
def checkedAgainst (pass : AuthPass) (ev : Pdu) : Except Error (Option (AuthState × Pdu)) :=
  match ev.stateKey with
  | none => .ok none
  | some _ =>
    match authTypesForEvent c ev.kind ev.sender ev.stateKey ev.content v with
    | .error _ => .ok none
    | .ok authTypes => do
      match ← authStateFor store v pass ev authTypes with
      | none => .ok none
      | some authState =>
        let create? :=
          if ev.kind = .roomCreate then some ev
          else pass.createEvent.or (authState.fetchState .roomCreate "")
        .ok (create?.map fun create => (authState, create))

/-- A pass over a list reaches an event whose auth check returns false, with a state in
which it finds a create event. -/
structure FailsAuth (initial : StateMap EventId) (before : List Pdu) (ev : Pdu) (after : List Pdu)
    (pass : AuthPass) (create : Pdu) : Prop where
  reached : authPass c store v ⟨initial, hoistedCreate c store v (before ++ ev :: after)⟩ before = .ok pass
  failed : ∃ authState, checkedAgainst c store v pass ev = .ok (some (authState, create)) ∧
    authCheck c v ev authState.thirdPartyInvite authState.fetchState create = .ok false

def createWithout (before after : List Pdu) (pass : AuthPass) : Option Pdu :=
  if before = [] then hoistedCreate c store v after else pass.createEvent

/-- The events up to the first that is not skipped are checked against the same with either
create event. -/
def SameChecks (resolved : StateMap EventId) (createEvent createEvent' : Option Pdu) : List Pdu → Prop
  | [] => True
  | ev :: evs =>
    checkedAgainst c store v ⟨resolved, createEvent⟩ ev = checkedAgainst c store v ⟨resolved, createEvent'⟩ ev ∧
      (checkedAgainst c store v ⟨resolved, createEvent⟩ ev = .ok none →
        SameChecks resolved createEvent createEvent' evs)

end

section
variable {c : Codec} {store : EventStore} {v : RoomVersion}

theorem authDecision_eq (pass : AuthPass) (ev : Pdu) :
    authDecision c store v pass ev = (do
      match ← checkedAgainst c store v pass ev with
      | none => .ok (false, pass.createEvent)
      | some (authState, create) =>
        .ok (← authCheck c v ev authState.thirdPartyInvite authState.fetchState create, some create)) := by
  unfold authDecision checkedAgainst
  cases ev.stateKey with
  | none => rfl
  | some stateKey =>
  simp only
  cases authTypesForEvent c ev.kind ev.sender (some stateKey) ev.content v with
  | error e => rfl
  | ok authTypes =>
  simp only
  cases authStateFor store v pass ev authTypes with
  | error e => rfl
  | ok authState? =>
  cases authState? with
  | none => rfl
  | some authState =>
  simp only [ok_bind]
  cases (if ev.kind = .roomCreate then some ev else pass.createEvent.or (authState.fetchState .roomCreate "")) with
  | none => rfl
  | some create => rfl

theorem authStep_congr {resolved : StateMap EventId} {createEvent createEvent' : Option Pdu} {ev : Pdu}
    (h : checkedAgainst c store v ⟨resolved, createEvent⟩ ev = checkedAgainst c store v
      ⟨resolved, createEvent'⟩ ev) :
    (authStep c store v ⟨resolved, createEvent⟩ ev = .ok ⟨resolved, createEvent⟩ ∧
        authStep c store v ⟨resolved, createEvent'⟩ ev = .ok ⟨resolved, createEvent'⟩ ∧
        checkedAgainst c store v ⟨resolved, createEvent⟩ ev = .ok none) ∨
      authStep c store v ⟨resolved, createEvent⟩ ev = authStep c store v ⟨resolved, createEvent'⟩ ev := by
  unfold authStep
  rw [authDecision_eq, authDecision_eq, ← h]
  cases checkedAgainst c store v ⟨resolved, createEvent⟩ ev with
  | error e => exact Or.inr rfl
  | ok checked =>
    cases checked with
    | none => exact Or.inl ⟨rfl, rfl, rfl⟩
    | some checked => exact Or.inr rfl

theorem authPass_sameChecks {resolved : StateMap EventId} {createEvent createEvent' : Option Pdu} :
    ∀ {evs : List Pdu}, SameChecks c store v resolved createEvent createEvent' evs →
      (authPass c store v ⟨resolved, createEvent⟩ evs).map (·.resolved) =
        (authPass c store v ⟨resolved, createEvent'⟩ evs).map (·.resolved)
  | [], _ => rfl
  | ev :: evs, h => by
    unfold authPass
    rcases authStep_congr h.1 with ⟨hs, hs', hnone⟩ | hs
    · rw [hs, hs']
      exact authPass_sameChecks (h.2 hnone)
    · rw [hs]

theorem FailsAuth.step {initial : StateMap EventId} {before after : List Pdu} {ev create : Pdu} {pass : AuthPass}
    (h : FailsAuth c store v initial before ev after pass create) :
    authStep c store v pass ev = .ok ⟨pass.resolved, some create⟩ := by
  obtain ⟨authState, hchecked, hfalse⟩ := h.failed
  unfold authStep
  rw [authDecision_eq, hchecked, ok_bind]
  simp only [hfalse, ok_bind]

theorem authPass_cons (pass : AuthPass) (ev : Pdu) (evs : List Pdu) :
    authPass c store v pass (ev :: evs) = authStep c store v pass ev >>= fun p => authPass c store v p evs := rfl

theorem authPass_append : ∀ (pass : AuthPass) (evs evs' : List Pdu),
    authPass c store v pass (evs ++ evs') = authPass c store v pass evs >>= fun p => authPass c store v p evs'
  | _, [], _ => rfl
  | pass, ev :: evs, evs' => by
    rw [List.cons_append, authPass_cons, authPass_cons]
    cases authStep c store v pass ev with
    | error e => rfl
    | ok p => exact authPass_append p evs evs'

theorem hoistedCreate_append {before : List Pdu} (h : before ≠ []) (evs evs' : List Pdu) :
    hoistedCreate c store v (before ++ evs) = hoistedCreate c store v (before ++ evs') := by
  obtain ⟨first, rest, rfl⟩ := List.exists_cons_of_ne_nil h
  rfl

theorem FailsAuth.without {initial : StateMap EventId} {before after : List Pdu} {ev create : Pdu} {pass : AuthPass}
    (h : FailsAuth c store v initial before ev after pass create) :
    authPass c store v ⟨initial, hoistedCreate c store v (before ++ after)⟩ before =
      .ok ⟨pass.resolved, createWithout c store v before after pass⟩ := by
  unfold createWithout
  split
  · rename_i hnil
    subst hnil
    have := h.reached
    cases this
    rfl
  · rename_i hne
    rw [hoistedCreate_append hne after (ev :: after)]
    exact h.reached

theorem eventsToCheck_append : ∀ (ids ids' : List EventId),
    eventsToCheck store (ids ++ ids') = (do .ok ((← eventsToCheck store ids) ++ (← eventsToCheck store ids')))
  | [], ids' => by
    rw [List.nil_append]
    cases eventsToCheck store ids' <;> rfl
  | id :: ids, ids' => by
    have ih := eventsToCheck_append ids ids'
    rw [List.cons_append, eventsToCheck, eventsToCheck]
    cases store.fetch id with
    | none => rfl
    | some ev =>
      simp only [ih]
      cases eventsToCheck store ids with
      | error e => rfl
      | ok evs =>
        cases eventsToCheck store ids' with
        | error e => rfl
        | ok evs' => by_cases hr : ev.rejected = true <;> simp [ok_bind, hr]

end

section
variable (c : Codec) (store : EventStore) (v : RoomVersion)

/-- A failed event has no influence when the events behind it are checked against the same
without it. -/
theorem failed_event_deleted (initial : StateMap EventId) {before after : List EventId} {id : EventId}
    {ev create : Pdu} {evsBefore evsAfter : List Pdu} {pass : AuthPass}
    (hbefore : eventsToCheck store before = .ok evsBefore) (hafter : eventsToCheck store after = .ok evsAfter)
    (hid : eventsToCheck store [id] = .ok [ev])
    (hfails : FailsAuth c store v initial evsBefore ev evsAfter pass create)
    (hsame : SameChecks c store v pass.resolved (some create) (createWithout c store v evsBefore evsAfter pass)
      evsAfter) :
    iterativeAuthCheck c store v (before ++ id :: after) initial =
      iterativeAuthCheck c store v (before ++ after) initial := by
  have hwith : eventsToCheck store (before ++ id :: after) = .ok (evsBefore ++ ev :: evsAfter) := by
    rw [show before ++ id :: after = before ++ ([id] ++ after) from rfl, eventsToCheck_append, eventsToCheck_append,
      hbefore, hafter, hid]
    rfl
  have hwithout : eventsToCheck store (before ++ after) = .ok (evsBefore ++ evsAfter) := by
    rw [eventsToCheck_append, hbefore, hafter]
    rfl
  unfold iterativeAuthCheck
  rw [hwith, hwithout, ok_bind, ok_bind, authPass_append, authPass_append, hfails.reached, hfails.without, ok_bind,
    ok_bind]
  have hstep : authPass c store v pass (ev :: evsAfter) =
      authPass c store v ⟨pass.resolved, some create⟩ evsAfter := by
    rw [authPass, hfails.step, ok_bind]
  rw [hstep]
  exact authPass_sameChecks hsame

end

/-- A create event of another server, and two topics of the room, the first of a user who
is not in it. -/
def forgedStore : EventStore where
  events :=
    [stateEvent "$c" "@alice:a" .roomCreate "" [("creator", .str "@alice:a")] [],
      stateEvent "$ma" "@alice:a" .roomMember "@alice:a" [("membership", .str "join")] ["$c"],
      stateEvent "$x" "@mallory:e" .roomCreate "" [("creator", .str "@mallory:e")] [],
      stateEvent "$y" "@mallory:e" (.other "m.room.topic") "" [("topic", .str "y")] ["$c"],
      stateEvent "$t" "@alice:a" (.other "m.room.topic") "" [("topic", .str "x")] ["$c", "$ma"]]
  nodup := by decide

/-- The failed topic leaves the create event that the other topic cites too. -/
theorem failed_topic_deleted :
    iterativeAuthCheck .plain forgedStore .V10 ["$y", "$t"] ∅ =
      iterativeAuthCheck .plain forgedStore .V10 ["$t"] ∅ := by
  have hfails : FailsAuth .plain forgedStore .V10 ∅ [] (forgedStore.events.get ⟨3, by decide⟩)
      [forgedStore.events.get ⟨4, by decide⟩] ⟨∅, none⟩ (forgedStore.events.get ⟨0, by decide⟩) :=
    { reached := rfl
      failed := ⟨_, rfl, by decide⟩ }
  exact @failed_event_deleted .plain forgedStore .V10 ∅ [] ["$t"] "$y" _ _ [] _ _ rfl rfl rfl hfails
    ⟨rfl, fun _ => trivial⟩

/-- The create event of another server fails, and the topic behind it is checked against it. -/
theorem forged_create_counts :
    ¬ ∀ (store : EventStore) (v : RoomVersion) (initial : StateMap EventId)
      (before after : List EventId) (id : EventId)
      (ev create : Pdu) (evsBefore evsAfter : List Pdu) (pass : AuthPass),
      eventsToCheck store before = .ok evsBefore → eventsToCheck store after = .ok evsAfter →
      eventsToCheck store [id] = .ok [ev] → FailsAuth .plain store v initial evsBefore ev evsAfter pass create →
      Agree SameMap (iterativeAuthCheck .plain store v (before ++ id :: after) initial)
        (iterativeAuthCheck .plain store v (before ++ after) initial) := by
  intro h
  have hfails : FailsAuth .plain forgedStore .V10 ∅ [] (forgedStore.events.get ⟨2, by decide⟩)
      [forgedStore.events.get ⟨4, by decide⟩] ⟨∅, none⟩ (forgedStore.events.get ⟨2, by decide⟩) :=
    { reached := rfl
      failed := ⟨_, rfl, by decide⟩ }
  have hsame := h forgedStore .V10 ∅ [] ["$t"] "$x" _ _ [] _ _ rfl rfl rfl hfails
  have hlookup := hsame.lookup_eq (.other "m.room.topic", "")
  revert hlookup
  decide

end Congruent
