import Mathlib.Data.Prod.Lex
import Mathlib.Data.String.Basic
import Congruent.EventAuth
import Congruent.KahnSort
import Congruent.Prog
import Congruent.Worklist

/-!
# State resolution

The resolution of conflicting state sets (`state_res/mod.rs`). The event store
does not change during a call, so the caches of fetched events are left out.
What the source leaves open is explicit: the order in which hash maps are
iterated and concurrent fetches complete is a `Choices`.
-/

namespace Congruent

abbrev StateMap (T : Type) := AList fun _ : TypeStateKey => T

/-- Hard cap on the size of the conflicted set. -/
def stateResMaxConflicted : Nat := 200000

/-- The events a call can fetch, each under its own id. -/
structure EventStore where
  events : List Pdu
  nodup : (events.map (·.eventId)).Nodup

/-- `event_fetch`. -/
def EventStore.fetch (st : EventStore) (id : EventId) : Option Pdu := st.events.find? fun ev => ev.eventId = id

/-- The open choices of a run: how each iterated collection is ordered, and how
the concurrent lookups of a sort interleave. -/
structure Choices where
  perm : Nat → {α : Type} → List α → List α
  perm_perm : ∀ (site : Nat) {α : Type} (l : List α), (perm site l).Perm l
  schedule : Nat → List Nat

/-- Collects into a duplicate-free list, in the order of first occurrence. -/
def collect {α : Type} [DecidableEq α] (l : List α) : List α :=
  l.foldl (fun acc x => if x ∈ acc then acc else acc ++ [x]) []

/-- Drops the leading run of a key, and then the repeats of each later one. -/
def dedupAfter {α κ : Type} [DecidableEq κ] (f : α → κ) (prev : κ) : List α → List α
  | [] => []
  | a :: l => if f a = prev then dedupAfter f prev l else a :: dedupAfter f (f a) l

/-- `Vec::dedup_by_key`: of neighbours with one key the first stays. -/
def dedupByKey {α κ : Type} [DecidableEq κ] (f : α → κ) : List α → List α
  | [] => []
  | a :: l => a :: dedupAfter f (f a) l

/-! ## Conflicts -/

abbrev Occurrences := AList fun _ : TypeStateKey => AList fun _ : EventId => Nat

def countOccurrence (occ : Occurrences) (entry : Sigma fun _ : TypeStateKey => EventId) : Occurrences :=
  let counts := (occ.lookup entry.1).getD ∅
  occ.insert entry.1 (counts.insert entry.2 ((counts.lookup entry.2).getD 0 + 1))

def fileOccurrence (setCount : Nat) (key : TypeStateKey) (acc : StateMap EventId × StateMap (List EventId))
    (entry : Sigma fun _ : EventId => Nat) : StateMap EventId × StateMap (List EventId) :=
  if entry.2 = setCount then (acc.1.insert key entry.1, acc.2)
  else (acc.1, acc.2.insert key ((acc.2.lookup key).getD [] ++ [entry.1]))

def separate (ch : Choices) (sets : List (StateMap EventId)) : StateMap EventId × StateMap (List EventId) :=
  let occ := (sets.flatMap fun set => ch.perm 0 set.entries).foldl countOccurrence ∅
  (ch.perm 1 occ.entries).foldl
    (fun acc e => (ch.perm 2 e.2.entries).foldl (fileOccurrence sets.length e.1) acc) (∅, ∅)

/-- The ids of the conflicted state, `into_values().flatten()`. -/
def conflictedIds (conflicting : StateMap (List EventId)) : List EventId := conflicting.entries.flatMap (·.2)

section
variable (store : EventStore)

def authEventsOf (id : EventId) : List EventId := ((store.fetch id).map (·.authEvents)).getD []

def searchFuel (seeds : List EventId) : Nat :=
  let edges := (store.events.map (·.authEvents.length)).sum
  seeds.length + edges * edges

/-- `calculate_conflicted_subgraph`: the subgraph and the missing events. -/
def calculateConflictedSubgraph (conflicting : StateMap (List EventId)) : List EventId × List EventId :=
  let seeds := (conflictedIds conflicting).dedup
  let backwards := Worklist.visit (authEventsOf store) (searchFuel store seeds) seeds []
  let missing := backwards.filter fun id => (store.fetch id).isNone
  let childrenOf id := backwards.flatMap fun child =>
    (authEventsOf store child).filterMap fun a => if a = id then some child else none
  let forwards := Worklist.visit childrenOf (searchFuel store seeds) seeds []
  (backwards.filter fun id => id ∈ forwards, missing)

end

def getAuthChainDiff (chains : List (List EventId)) : List EventId :=
  match chains with
  | [a, b] => a.filter (· ∉ b) ++ b.filter (· ∉ a)
  | [] => []
  | first :: rest =>
    let union := collect (first :: rest).flatten
    let intersection := first.filter fun id => rest.all fun chain => id ∈ chain
    union.filter (· ∉ intersection)

def forkConflicts (ch : Choices) (conflicting : StateMap (List EventId)) (set : StateMap EventId) : List EventId :=
  (ch.perm 3 set.entries).filterMap fun e => if (conflicting.lookup e.1).isSome then some e.2 else none

/-- The algorithm `resolve` picks for a room version. -/
def stateresVersion : RoomVersionId → StateResolutionVersion
  | .V1 => .V1
  | .V2 | .V3 | .V4 | .V5 | .V6 | .V7 | .V8 | .V9 | .V10 | .V11 => .V2
  | _ => .V2_1

def existingState (store : EventStore) (ids : List EventId) : List EventId :=
  (collect ids).filter fun id => (store.fetch id).any fun ev => ev.stateKey.isSome

def allConflicted (ch : Choices) (store : EventStore) (authChainFetch : List EventId → List EventId)
    (version : StateResolutionVersion) (sets : List (StateMap EventId))
    (conflicting : StateMap (List EventId)) : Except Error (List EventId) :=
  if version = .V2_1 then
    let (subgraph, missing) := calculateConflictedSubgraph store conflicting
    if missing ≠ [] then .error (.invalidPdu "Cannot resolve state with missing auth events")
    else .ok (ch.perm 5 (existingState store (ch.perm 4 (conflictedIds conflicting ++ subgraph))))
  else
    let diff := getAuthChainDiff (sets.map fun set => authChainFetch (forkConflicts ch conflicting set))
    .ok (ch.perm 5 (existingState store (ch.perm 4 (diff ++ conflictedIds conflicting))))

/-! ## Power levels of senders -/

def isTypeAndKey (ev : Pdu) (kind : EventType) (stateKey : StateKey) : Bool :=
  ev.kind = kind && ev.stateKey = some stateKey

/-- The memo tables the concurrent lookups share. -/
structure PlCaches where
  parsed : AList fun _ : EventId => PowerLevelsContentFields
  sender : AList fun _ : UserId × EventId => Int

namespace PlCaches

def empty : PlCaches := ⟨∅, ∅⟩

/-- `parsed_pl_cache.entry(id).or_insert_with(..)`. -/
def parsedOrInsert (id : EventId) (fields : PowerLevelsContentFields) (s : PlCaches) :
    PowerLevelsContentFields × PlCaches :=
  match s.parsed.lookup id with
  | some fields => (fields, s)
  | none => (fields, { s with parsed := s.parsed.insert id fields })

def insertSender (key : UserId × EventId) (level : Int) (s : PlCaches) : PlCaches :=
  { s with sender := s.sender.insert key level }

end PlCaches

section
variable (c : Codec) (store : EventStore)

/-- Notes a fetched auth event: the first create event and the first
power-levels event. -/
def noteAuthEvent (aev : Option Pdu) (creator pl : Option Pdu) : Option Pdu × Option Pdu :=
  match aev with
  | none => (creator, pl)
  | some aev =>
    if isTypeAndKey aev .roomCreate "" && creator.isNone then (some aev, pl)
    else if isTypeAndKey aev .roomPowerLevels "" && pl.isNone then (creator, some aev)
    else (creator, pl)

/-- The create event and the power-levels event an event cites: the loop over
its auth events, which takes a cached power-levels event without looking at it. -/
def scanAuthEvents : List EventId → Option Pdu → Option Pdu → Prog PlCaches (Option Pdu × Option Pdu)
  | [], creator, pl => .ret (creator, pl)
  | aid :: aids, creator, pl => do
    if ← Prog.read fun s => (s.parsed.lookup aid).isSome then
      scanAuthEvents aids creator ((store.fetch aid).or pl)
    else
      let found := noteAuthEvent (store.fetch aid) creator pl
      if found.1.isSome && found.2.isSome then .ret found else scanAuthEvents aids found.1 found.2

def createPrivileges (creator : Option Pdu) (sender : UserId) : Bool :=
  creator.any fun ev =>
    match c.roomCreate ev.content with
    | .error _ => false
    | .ok content =>
      ((RoomVersion.new content.roomVersion).toOption.any fun v => v.explicitlyPrivilegeRoomCreators) &&
        (ev.sender = sender || (content.additionalCreators.getD []).any (· = sender))

def parsedFields (pl : Pdu) : PowerLevelsContentFields :=
  match PowerLevelsContentFields.parse c pl.content with
  | .ok fields => fields
  | .error _ => ⟨[], 0⟩

def isRoomCreator (creator : Pdu) (sender : UserId) : Bool :=
  match c.roomCreate creator.content with
  | .ok content =>
    match content.creator with
    | some user => user = sender
    | none => creator.sender = sender
  | .error _ => creator.sender = sender

def getPowerLevelForSender (globalContext : Option PowerLevelsContentFields) (id : EventId) : Prog PlCaches Int :=
  match globalContext, store.fetch id with
  | some context, some ev => .ret ((context.getUserPower ev.sender).getD context.usersDefault)
  | some _, none => .ret 0
  | none, none => .ret 0
  | none, some ev =>
    if isTypeAndKey ev .roomCreate "" then .ret intMax
    else do
      let (creator, pl) ← scanAuthEvents store ev.authEvents none none
      match pl, creator with
      | some pl, creator =>
        let parsed ← Prog.act (PlCaches.parsedOrInsert pl.eventId (parsedFields c pl))
        match ← Prog.read fun s => s.sender.lookup (ev.sender, pl.eventId) with
        | some level => .ret level
        | none =>
          let level := if createPrivileges c creator ev.sender then intMax
            else (parsed.getUserPower ev.sender).getD parsed.usersDefault
          Prog.modify (PlCaches.insertSender (ev.sender, pl.eventId) level)
          .ret level
      | none, some creator => .ret (if isRoomCreator c creator ev.sender then intMax else 0)
      | none, none => .ret 0

end

/-! ## Sorting by power -/

/-- Highest power level first, then the oldest, then the least id. -/
abbrev PowerKey := Lex (ℤᵒᵈ × Lex (ℕ × EventId))

def powerKey (level : Int) (ts : Nat) (id : EventId) : PowerKey := toLex (OrderDual.toDual level, toLex (ts, id))

def sortNode (ch : Choices) (site : Nat) (graph : List (EventId × List EventId))
    (keyFn : EventId → Except Error (Int × Nat)) (id : EventId) : Except Error (Node EventId PowerKey) := do
  let (level, ts) ← keyFn id
  .ok ⟨id, ch.perm site ((List.lookup id graph).getD []), powerKey level ts id⟩

def graphIds (ch : Choices) (site : Nat) (graph : List (EventId × List EventId)) : List EventId :=
  collect ((ch.perm site graph).flatMap fun p => p.1 :: ch.perm (site + 1) p.2)

def lexicographicalTopologicalSort (ch : Choices) (site : Nat) (graph : List (EventId × List EventId))
    (keyFn : EventId → Except Error (Int × Nat)) : Except Error (List EventId) := do
  let nodes ← (graphIds ch site graph).mapM (sortNode ch (site + 2) graph keyFn)
  .ok (kahnSort nodes)

/-- The graph of the events to sort: their auth events within `authDiff`,
followed to the end. -/
def powerGraph (store : EventStore) (authDiff eventsToSort : List EventId) : List (EventId × List EventId) :=
  let edges id := collect ((authEventsOf store id).filter (· ∈ authDiff))
  (Worklist.visit edges (searchFuel store eventsToSort) eventsToSort []).map fun id => (id, edges id)

def eventToKey (store : EventStore) (levels : List (EventId × Int)) (id : EventId) : Except Error (Int × Nat) :=
  match List.lookup id levels, store.fetch id with
  | some level, some ev => .ok (level, ev.originServerTs)
  | _, _ => .error (.notFound "")

/-- `reverse_topological_power_sort`, with the memo tables before and after. -/
def reverseTopologicalPowerSort (c : Codec) (ch : Choices) (site : Nat) (store : EventStore)
    (eventsToSort authDiff : List EventId) (globalContext : Option PowerLevelsContentFields) (caches : PlCaches) :
    Except Error (List EventId × PlCaches) := do
  let graph := powerGraph store authDiff eventsToSort
  let ids := ch.perm site (graph.map (·.1))
  let (levels, caches) := Prog.runAll (ch.schedule site)
    (ids.map (getPowerLevelForSender c store globalContext)) caches
  let sorted ← lexicographicalTopologicalSort ch (site + 1) graph (eventToKey store (ids.zip levels))
  .ok (sorted, caches)

/-! ## Iterative auth checks -/

/-- The state an event is checked against, in the order of the keys. -/
abbrev AuthState := List (TypeStateKey × Pdu)

namespace AuthState

def sortKeys (l : AuthState) : AuthState := l.insertionSort fun a b => TypeStateKey.le a.1 b.1

/-- The entry of a key; the source searches the sorted list for it. -/
def fetchState (l : AuthState) (kind : EventType) (stateKey : StateKey) : Option Pdu :=
  (l.find? fun e => e.1 = (kind, stateKey)).map (·.2)

def thirdPartyInvite (l : AuthState) : Option Pdu :=
  (l.find? fun e => e.2.kind = .roomThirdPartyInvite).map (·.2)

end AuthState

/-- The first occurrence of a character replaced, as `replacen(.., 1)`. -/
def replaceFirst (a b : Char) : List Char → List Char
  | [] => []
  | x :: xs => if x = a then b :: xs else x :: replaceFirst a b xs

/-- A pass of checks: the state resolved so far and the create event found. -/
structure AuthPass where
  resolved : StateMap EventId
  createEvent : Option Pdu

section
variable (c : Codec) (store : EventStore) (v : RoomVersion)

def eventsToCheck : List EventId → Except Error (List Pdu)
  | [] => .ok []
  | id :: ids =>
    match store.fetch id with
    | none => .error (.notFound ("Failed to find " ++ id))
    | some ev => do
      let rest ← eventsToCheck ids
      .ok (if ev.rejected then rest else ev :: rest)

def hoistedCreate (events : List Pdu) : Option Pdu :=
  if v.roomIdsAsHashes then do
    let first ← events.head?
    let roomId ← first.roomIdOrHash c
    let createId ← c.parseEventId (String.ofList (replaceFirst '!' '$' roomId.toList))
    store.fetch createId
  else none

def acceptedEvent (id : EventId) : Option Pdu := (store.fetch id).filter fun ev => !ev.rejected

def citedState : List EventId → Except Error AuthState
  | [] => .ok []
  | aid :: aids =>
    match acceptedEvent store aid with
    | none => citedState aids
    | some ev =>
      match ev.stateKey with
      | none => .error (.invalidPdu "State event had no state key")
      | some key => do .ok (((ev.kind, key), ev) :: (← citedState aids))

def supplementalState (resolved : StateMap EventId) (authTypes : List TypeStateKey) : AuthState :=
  authTypes.filterMap fun key => do
    let id ← resolved.lookup key
    let ev ← acceptedEvent store id
    some (key, ev)

/-- The state an event is checked against, `none` when the create event is
missing. -/
def authStateFor (pass : AuthPass) (ev : Pdu) (authTypes : List TypeStateKey) : Except Error
    (Option AuthState) := do
  let create? : Option AuthState :=
    if v.roomIdsAsHashes then
      if ev.kind = .roomCreate then some [((.roomCreate, ""), ev)]
      else pass.createEvent.map fun ce => [((ce.kind, ""), ce)]
    else some []
  match create? with
  | none => .ok none
  | some create =>
    let cited ← citedState store ev.authEvents
    let sorted := AuthState.sortKeys (create ++ cited ++ supplementalState store pass.resolved authTypes)
    if v.stateRes.rank < StateResolutionVersion.V2_1.rank then
      .ok (some (AuthState.sortKeys (dedupByKey (·.1) sorted.reverse)))
    else .ok (some (dedupByKey (·.1) sorted))

def authDecision (pass : AuthPass) (ev : Pdu) : Except Error (Bool × Option Pdu) :=
  match ev.stateKey with
  | none => .ok (false, pass.createEvent)
  | some _ =>
    match authTypesForEvent c ev.kind ev.sender ev.stateKey ev.content v with
    | .error _ => .ok (false, pass.createEvent)
    | .ok authTypes => do
      match ← authStateFor store v pass ev authTypes with
      | none => .ok (false, pass.createEvent)
      | some authState =>
        let create? :=
          if ev.kind = .roomCreate then some ev
          else pass.createEvent.or (authState.fetchState .roomCreate "")
        match create? with
        | none => .ok (false, pass.createEvent)
        | some create =>
          .ok (← authCheck c v ev authState.thirdPartyInvite authState.fetchState create, some create)

def authStep (pass : AuthPass) (ev : Pdu) : Except Error AuthPass := do
  let (allowed, createEvent) ← authDecision c store v pass ev
  match allowed, ev.stateKey with
  | true, some key => .ok ⟨pass.resolved.insert (ev.kind, key) ev.eventId, createEvent⟩
  | _, _ => .ok ⟨pass.resolved, createEvent⟩

def authPass : AuthPass → List Pdu → Except Error AuthPass
  | pass, [] => .ok pass
  | pass, ev :: evs => do authPass (← authStep c store v pass ev) evs

def iterativeAuthCheck (ids : List EventId) (initial : StateMap EventId) : Except Error (StateMap EventId) := do
  let events ← eventsToCheck store ids
  let pass ← authPass c store v ⟨initial, hoistedCreate c store v events⟩ events
  .ok pass.resolved

end

/-! ## Mainline -/

section
variable (store : EventStore)

def firstPowerLevels (authEvents : List EventId) : Option Pdu :=
  authEvents.findSome? fun aid => (store.fetch aid).filter fun ev => isTypeAndKey ev .roomPowerLevels ""

/-- The mainline from a power-levels event on, each event with its position.
`none` when the walk does not end. -/
def mainlineWalk : (fuel : Nat) → Option EventId → Nat → (AList fun _ : EventId => Nat) →
    Option (AList fun _ : EventId => Nat)
  | 0, _, _, _ => none
  | _ + 1, none, _, depths => some depths
  | fuel + 1, some p, position, depths =>
    match store.fetch p with
    | none => some depths
    | some ev =>
      mainlineWalk fuel ((firstPowerLevels store ev.authEvents).map (·.eventId)) (position + 1)
        (depths.insert ev.eventId position)

/-- The walk from a cited power-levels event to the mainline: the depth found,
and the path to it. -/
def walkToMainline (depths : AList fun _ : EventId => Nat) : (fuel : Nat) → Option Pdu → List EventId →
    Option Nat × List EventId
  | 0, _, path => (none, path)
  | _ + 1, none, path => (none, path)
  | fuel + 1, some pl, path =>
    if pl.eventId ∈ path then (none, path)
    else
      let path := path ++ [pl.eventId]
      match depths.lookup pl.eventId with
      | some depth => (some depth, path)
      | none => walkToMainline depths fuel (firstPowerLevels store pl.authEvents) path

def eventDepth (depths : AList fun _ : EventId => Nat) (ev : Pdu) : Option Nat × AList fun _ : EventId => Nat :=
  if isTypeAndKey ev .roomPowerLevels "" then (depths.lookup ev.eventId, depths)
  else
    match walkToMainline store depths (store.events.length + 1) (firstPowerLevels store ev.authEvents) [] with
    | (some depth, path) => (some depth, path.foldl (fun depths id => depths.insert id depth) depths)
    | (none, _) => (none, depths)

def mainlineKeys : List EventId → (AList fun _ : EventId => Nat) → List (Option Nat × Nat × EventId)
  | [], _ => []
  | id :: ids, depths =>
    match store.fetch id with
    | none => mainlineKeys ids depths
    | some ev =>
      let (depth, depths) := eventDepth store depths ev
      (depth, ev.originServerTs, id) :: mainlineKeys ids depths

/-- The oldest first, then the least id. -/
def ageLe (a b : Nat × EventId) : Bool := a.1 < b.1 || (a.1 = b.1 && a.2 ≤ b.2)

/-- The comparison of sort keys: no mainline first, then the deepest, the
oldest and the least id. -/
def mainlineLe (a b : Option Nat × Nat × EventId) : Bool :=
  match a.1, b.1 with
  | none, none => ageLe a.2 b.2
  | none, some _ => true
  | some _, none => false
  | some da, some db => db < da || (db = da && ageLe a.2 b.2)

def mainlineSort (toSort : List EventId) (powerLevels : Option EventId) : Except Error (List EventId) :=
  if toSort = [] then .ok []
  else
    match mainlineWalk store (store.events.length + 2) powerLevels 0 ∅ with
    | none => .error .diverges
    | some depths =>
      let keys := (mainlineKeys store toSort depths).insertionSort fun a b => mainlineLe a b
      .ok (dedupByKey id (keys.map (·.2.2)))

end

/-! ## Resolution -/

/-- Events that change who may do what. -/
def isPowerEvent (c : Codec) (ev : Pdu) : Bool :=
  match ev.kind with
  | .roomPowerLevels | .roomJoinRules | .roomCreate => ev.stateKey = some ""
  | .roomMember =>
    match c.roomMember ev.content with
    | .ok membership => (membership = .leave || membership = .ban) && some ev.sender ≠ ev.stateKey
    | .error _ => false
  | _ => false

def pushCreator (fields : PowerLevelsContentFields) (user : UserId) : PowerLevelsContentFields :=
  if (fields.getUserPower user).isNone then { fields with users := fields.users ++ [(user, intMax)] } else fields

def injectPrivilegedCreators (c : Codec) (store : EventStore) (unconflicted : StateMap EventId)
    (fields : PowerLevelsContentFields) : PowerLevelsContentFields :=
  let create? : Option (Pdu × RoomCreateEventContent) := do
    let id ← unconflicted.lookup (EventType.roomCreate, "")
    let ev ← store.fetch id
    let content ← (c.roomCreate ev.content).toOption
    some (ev, content)
  match create? with
  | none => fields
  | some (ev, content) =>
    let fields := (ev.sender :: content.additionalCreators.getD []).foldl pushCreator fields
    { fields with users := fields.users.insertionSort fun a b => a.1 ≤ b.1 }

def globalPlContext (c : Codec) (store : EventStore) (v : RoomVersion) (unconflicted : StateMap EventId)
    (id : EventId) : Option PowerLevelsContentFields := do
  let ev ← store.fetch id
  let fields ← (PowerLevelsContentFields.parse c ev.content).toOption
  some (if v.explicitlyPrivilegeRoomCreators then injectPrivilegedCreators c store unconflicted fields else fields)

/-- The events the first pass of version 2.1 resolves. -/
def isFoundationEvent (ev : Pdu) : Bool :=
  match ev.kind with
  | .roomPowerLevels | .roomCreate | .roomJoinRules | .roomMember => true
  | _ => false

/-- The sub-resolution of version 2.1: the ruling power levels and the memo
tables after it. -/
def subResolve (c : Codec) (ch : Choices) (store : EventStore) (v : RoomVersion) (unconflicted : StateMap EventId)
    (conflicted : List EventId) : Except Error (Option PowerLevelsContentFields × PlCaches) := do
  let foundation := (ch.perm 6 conflicted).filter fun id => (store.fetch id).any isFoundationEvent
  let (sorted, caches) ← reverseTopologicalPowerSort c ch 10 store foundation conflicted none .empty
  let resolved ← iterativeAuthCheck c store v sorted ∅
  match resolved.lookup (.roomPowerLevels, "") with
  | some id => .ok (globalPlContext c store v unconflicted id, caches)
  | none => .ok ((unconflicted.lookup (.roomPowerLevels, "")).bind (globalPlContext c store v unconflicted), caches)

def controlEvents (c : Codec) (ch : Choices) (store : EventStore) (conflicted : List EventId) : List EventId :=
  ((ch.perm 7 conflicted).filter fun id => (store.fetch id).any (isPowerEvent c)).insertionSort (· ≤ ·)

/-- The power levels the control events are sorted by, where the version has a
sub-resolution for them. -/
def rulingContext (c : Codec) (ch : Choices) (store : EventStore) (version : StateResolutionVersion)
    (v : RoomVersion) (unconflicted : StateMap EventId) (conflicted : List EventId) :
    Except Error (Option PowerLevelsContentFields × PlCaches) :=
  if version = .V2_1 then subResolve c ch store v unconflicted conflicted else .ok (none, .empty)

def sortControl (c : Codec) (ch : Choices) (store : EventStore) (version : StateResolutionVersion) (v : RoomVersion)
    (unconflicted : StateMap EventId) (conflicted : List EventId) : Except Error (List EventId) := do
  let (context, caches) ← rulingContext c ch store version v unconflicted conflicted
  let (sorted, _) ← reverseTopologicalPowerSort c ch 20 store (controlEvents c ch store conflicted) conflicted
    context caches
  .ok sorted

def eventsToResolve (ch : Choices) (conflicted sortedControl : List EventId) : List EventId :=
  ((ch.perm 8 conflicted).filter (· ∉ sortedControl)).insertionSort (· ≤ ·)

def initialState (version : StateResolutionVersion) (unconflicted : StateMap EventId) : StateMap EventId :=
  if version = .V2_1 then ∅ else unconflicted

def resolveConflicted (c : Codec) (ch : Choices) (store : EventStore) (version : StateResolutionVersion)
    (v : RoomVersion) (unconflicted : StateMap EventId) (conflicted : List EventId) :
    Except Error (StateMap EventId) := do
  let sortedControl ← sortControl c ch store version v unconflicted conflicted
  let resolvedControl ← iterativeAuthCheck c store v sortedControl (initialState version unconflicted)
  let sortedLeft ← mainlineSort store (eventsToResolve ch conflicted sortedControl)
    (resolvedControl.lookup (.roomPowerLevels, ""))
  iterativeAuthCheck c store v sortedLeft resolvedControl

def resolve (c : Codec) (ch : Choices) (roomVersion : RoomVersionId) (sets : List (StateMap EventId))
    (store : EventStore) (authChainFetch : List EventId → List EventId) : Except Error (StateMap EventId) := do
  let version := stateresVersion roomVersion
  let (unconflicted, conflicting) := separate ch sets
  if conflicting.entries = [] then .ok unconflicted
  else
    let conflicted ← allConflicted ch store authChainFetch version sets conflicting
    if conflicted.length > stateResMaxConflicted then .ok unconflicted
    else
      let v ← RoomVersion.new roomVersion
      let resolved ← resolveConflicted c ch store version v unconflicted conflicted
      -- the unconflicted state overrides what was resolved
      .ok (unconflicted ∪ resolved)

end Congruent
