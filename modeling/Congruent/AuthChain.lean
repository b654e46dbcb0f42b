import Mathlib.Logic.Relation
import Congruent.Event
import Congruent.EventWrites
import Congruent.KeyedMap
import Congruent.Machine
import Congruent.Enumeration

/-!
# Auth chains (`rooms/auth_chain`)

The auth chain of an event is found by a walk through the stored auth edges, level by
level. A chain that was found whole is cached, in the database and in memory, and a walk
that comes to an event with a cached chain takes the chain and does not go on from there.
-/

namespace Congruent.AuthChain

open EventWrites (Bitmap)

/-! ## The store -/

/-- Rooms and events have short ids; an event has the row of its auth events, but for
events stored before there were rows. -/
structure Store where
  rooms : Enumeration RoomId
  events : Enumeration EventId
  eventidPdu : AList fun _ : EventId => Pdu
  shortauthevents : AList fun _ : Nat => List Nat

namespace Store

def empty : Store := ⟨.empty, .empty, ∅, ∅⟩

def getPduInRoom (c : Codec) (st : Store) (room : RoomId) (id : EventId) : Option Pdu :=
  (st.eventidPdu.lookup id).filter fun pdu => pdu.roomIdOrHash c = some room

def arrive (st : Store) (pdu : Pdu) (indexed : Bool) : Store :=
  let stored := (st.eventidPdu.lookup pdu.eventId).getD pdu
  let st := { st with eventidPdu := st.eventidPdu.insert pdu.eventId stored }
  if indexed then
    let events := (st.events.number pdu.eventId).numberAll stored.authEvents
    { st with
      events
      shortauthevents := st.shortauthevents.insert (events.short pdu.eventId) (stored.authEvents.map events.short) }
  else st

end Store

/-! ## The caches (`auth_chain/data.rs`) -/

/-- Chains by the short ids of a room and an event. -/
structure Data where
  shorteventidAuthchain : AList fun _ : Nat × Nat => Bitmap
  authChainCache : AList fun _ : Nat × Nat => Bitmap

namespace Data

def empty : Data := ⟨∅, ∅⟩

def getCachedEventidAuthchain (d : Data) (key : Nat × Nat) : Option Bitmap × Data :=
  match d.authChainCache.lookup key with
  | some chain => (some chain, d)
  | none =>
    match d.shorteventidAuthchain.lookup key with
    | some chain => (some chain, { d with authChainCache := d.authChainCache.insert key chain })
    | none => (none, d)

def cacheAuthChain (d : Data) (key : Nat × Nat) (chain : Bitmap) : Data :=
  ⟨d.shorteventidAuthchain.insert key chain, d.authChainCache.insert key chain⟩

def clearCache (d : Data) : Data := { d with authChainCache := ∅ }

end Data

structure State where
  store : Store
  db : Data

inductive Failure where
  | roomNotFound
  | wrongRoom (eventId : EventId)

/-- In what order a hash set gives what was put in. -/
structure SetOrder where
  iter : List EventId → List EventId
  mem_iter : ∀ {l id}, id ∈ iter l ↔ id ∈ l

/-! ## The walk (`get_auth_chain_inner`) -/

instance (n : Nat) (b : Bitmap) : Decidable (n ∈ b) := inferInstanceAs (Decidable (n ∈ b.elements))

/-- What comes of the auth events of a level: all go into `found`, and those without a
cached chain into `next`. -/
structure Pass (A : Type) where
  found : Bitmap
  next : List A
  db : Data

def Pass.note {A : Type} (shortroomid : Nat) (short : A → Nat) (p : Pass A) (a : A) : Pass A :=
  if short a ∈ p.found then p
  else
    match p.db.getCachedEventidAuthchain (shortroomid, short a) with
    | (some cached, db) => ⟨(p.found.insert (short a)).union cached, p.next, db⟩
    | (none, db) => ⟨p.found.insert (short a), p.next ++ [a], db⟩

structure Walk where
  todo : List (Nat × EventId)
  found : Bitmap
  isComplete : Bool
  events : Enumeration EventId
  db : Data
  /-- An event of another room ends the walk. -/
  wrongRoom : Option EventId

/-- What the loop over the events without rows has gathered. -/
structure Legacy where
  newAuthEvents : List EventId
  isComplete : Bool
  wrongRoom : Option EventId

section
variable (c : Codec) (st : Store) (order : SetOrder) (room : RoomId) (shortroomid : Nat)

def Legacy.gather (l : Legacy) (id : EventId) : Legacy :=
  if l.wrongRoom.isSome then l
  else
    match st.getPduInRoom c room id with
    | none => { l with isComplete := false }
    | some pdu =>
      if pdu.roomId.any fun claimed => claimed ≠ room then { l with wrongRoom := some id }
      else { l with newAuthEvents := l.newAuthEvents ++ pdu.authEvents }

namespace Walk

def rows (w : Walk) : List Nat := w.todo.flatMap fun p => (st.shortauthevents.lookup p.1).getD []

def missingEvents (w : Walk) : List EventId :=
  (w.todo.filter fun p => (st.shortauthevents.lookup p.1).isNone).map Prod.snd

def followRows (w : Walk) : Walk :=
  let pass : Pass Nat := (w.rows st).foldl (Pass.note shortroomid id) ⟨w.found, [], w.db⟩
  { w with
    todo := pass.next.filterMap fun short => (w.events.get? short).map fun id => (short, id)
    found := pass.found
    isComplete := w.isComplete && pass.next.all fun short => (w.events.get? short).isSome
    db := pass.db }

def followLegacy (w : Walk) (missing : List EventId) : Walk :=
  let legacy := missing.foldl (Legacy.gather c st room) ⟨[], w.isComplete, none⟩
  if legacy.wrongRoom.isSome then { w with isComplete := legacy.isComplete, wrongRoom := legacy.wrongRoom }
  else
    let ids := order.iter legacy.newAuthEvents
    let events := w.events.numberAll ids
    let pass : Pass (Nat × EventId) := (ids.map fun id => (events.short id, id)).foldl
      (Pass.note shortroomid Prod.fst) ⟨w.found, w.todo, w.db⟩
    ⟨pass.next, pass.found, legacy.isComplete, events, pass.db, none⟩

/-- One turn of the loop. -/
def level (w : Walk) : Walk := (w.followRows st shortroomid).followLegacy c st order room shortroomid
    (w.missingEvents st)

/-- The loop, for at most `fuel` turns. -/
def run : (fuel : Nat) → Walk → Option Walk
  | 0, w => if w.todo.isEmpty || w.wrongRoom.isSome then some w else none
  | fuel + 1, w =>
    if w.todo.isEmpty || w.wrongRoom.isSome then some w else run fuel (w.level c st order room shortroomid)

end Walk

end

/-! ## The create event -/

def createId (c : Codec) (room : RoomId) : Option EventId :=
  (stripChar '!' room).bind fun rest => c.parseEventId ("$" ++ rest)

def Store.addDerivedCreateEvent (c : Codec) (st : Store) (room : RoomId)
    (exclude : Option EventId) (chain : Bitmap) :
    Bool × Bitmap :=
  match createId c room with
  | none => (true, chain)
  | some createId =>
    if exclude = some createId then (true, chain)
    else
      match st.events.short? createId with
      | none => (true, chain)
      | some createShort =>
        if (st.getPduInRoom c room createId).isNone then (false, chain) else (true, chain.insert createShort)

/-! ## Requests (`get_auth_chain`) -/

/-- The starting events that are in the cache, and those that are not. -/
structure Checked where
  fullAuthChain : Bitmap
  uncached : List (Nat × EventId)
  db : Data

def Checked.check (shortroomid : Nat) (k : Checked) (start : Nat × EventId) : Checked :=
  match k.db.getCachedEventidAuthchain (shortroomid, start.1) with
  | (some cached, db) => ⟨(k.fullAuthChain.union cached).insert start.1, k.uncached, db⟩
  | (none, db) => ⟨k.fullAuthChain, k.uncached ++ [start], db⟩

namespace State

def init : State := ⟨.empty, .empty⟩

section
variable (c : Codec) (order : SetOrder) (fuel : Nat) (room : RoomId)

def getAuthChainInner (shortroomid : Nat) (s : State) (start : Nat × EventId) :
    Option (Except Failure (Bitmap × Bool) × State) :=
  (Walk.run c s.store order room shortroomid fuel ⟨[start], .empty, true, s.store.events, s.db, none⟩).map fun w =>
    let s : State := ⟨{ s.store with events := w.events }, w.db⟩
    match w.wrongRoom with
    | some id => (.error (.wrongRoom id), s)
    | none =>
      let r := s.store.addDerivedCreateEvent c room (some start.2) w.found
      (.ok (r.2, w.isComplete && r.1), s)

/-- The walks of the starting events that were not in the cache; it is looked into again
before each. -/
def walkUncached (shortroomid : Nat) : List (Nat × EventId) → Bitmap → State →
    Option (Except Failure Bitmap × State)
  | [], full, s => some (.ok full, s)
  | start :: rest, full, s =>
    match s.db.getCachedEventidAuthchain (shortroomid, start.1) with
    | (some cached, db) => walkUncached shortroomid rest ((full.union cached).insert start.1) { s with db := db }
    | (none, db) =>
      (getAuthChainInner c order fuel room shortroomid { s with db := db } start).bind fun
        | (.error e, s) => some (.error e, s)
        | (.ok (chain, isComplete), s) =>
          let s := if isComplete then { s with db := s.db.cacheAuthChain (shortroomid, start.1) chain } else s
          walkUncached shortroomid rest ((full.union chain).insert start.1) s

def getAuthChain (starting : List EventId) (s : State) : Option (Except Failure (List Nat) × State) :=
  match s.store.rooms.short? room with
  | none => some (.error .roomNotFound, s)
  | some shortroomid =>
    let events := s.store.events.numberAll starting
    let checked := (starting.map fun id => (events.short id, id)).foldl
      (Checked.check shortroomid) ⟨.empty, [], s.db⟩
    (walkUncached c order fuel room shortroomid checked.uncached checked.fullAuthChain
      ⟨{ s.store with events := events }, checked.db⟩).map fun
        | (.error e, s) => (.error e, s)
        | (.ok full, s) => (.ok (s.store.addDerivedCreateEvent c room none full).2.elements, s)

def eventIdsIter (starting : List EventId) (s : State) : Option (List EventId) :=
  (s.getAuthChain c order fuel room starting).bind fun r =>
    r.1.toOption.map fun chain => chain.filterMap r.2.store.events.get?

end

/-- The cached chains are dropped. -/
def uncached (s : State) : State := ⟨s.store, .empty⟩

end State

/-! ## Runs -/

inductive Action where
  | getOrCreateShortroomid (room : RoomId)
  | getOrCreateShorteventid (id : EventId)
  | arrive (pdu : Pdu) (indexed : Bool)
  | getAuthChain (order : SetOrder) (fuel : Nat) (room : RoomId) (starting : List EventId)
  /-- The cache in memory drops a chain for a newer one. -/
  | evict (key : Nat × Nat)
  | clearCache
  | clearDbCache

def step (c : Codec) : Action → State → Option State
  | .getOrCreateShortroomid room, s => some { s with store := { s.store with rooms := s.store.rooms.number room } }
  | .getOrCreateShorteventid id, s => some { s with store := { s.store with events := s.store.events.number id } }
  | .arrive pdu indexed, s => some { s with store := s.store.arrive pdu indexed }
  | .getAuthChain order fuel room starting, s => (s.getAuthChain c order fuel room starting).map Prod.snd
  | .evict key, s => some { s with db := { s.db with authChainCache := s.db.authChainCache.erase key } }
  | .clearCache, s => some { s with db := s.db.clearCache }
  | .clearDbCache, s => some s.uncached

/-! ## What a chain is -/

namespace Store

variable (c : Codec) (st : Store) (room : RoomId)

def storedAuthEvents (id : EventId) : Option (List EventId) :=
  match (st.events.short? id).bind st.shortauthevents.lookup with
  | some row => some (row.filterMap st.events.get?)
  | none => (st.getPduInRoom c room id).map (·.authEvents)

def AuthEdge (a b : EventId) : Prop := ∃ ids ∈ st.storedAuthEvents c room a, b ∈ ids

def DerivedCreate (id : EventId) : Prop :=
  createId c room = some id ∧ id ∈ st.events.items ∧ (st.getPduInRoom c room id).isSome

def InAuthChain (starting : List EventId) (id : EventId) : Prop :=
  (∃ a ∈ starting, Relation.ReflTransGen (st.AuthEdge c room) a id) ∨ st.DerivedCreate c room id

end Store

def Rooted (c : Codec) : Action → State → Prop
  | .arrive pdu _, _ => ∀ room ∈ pdu.roomIdOrHash c, createId c room = some pdu.eventId → pdu.authEvents = []
  | .getOrCreateShortroomid _, _ | .getOrCreateShorteventid _, _ | .getAuthChain .., _ | .evict _, _
  | .clearCache, _ | .clearDbCache, _ => True

instance (c : Codec) : ∀ (a : Action) (s : State), Decidable (Rooted c a s)
  | .arrive pdu _, _ =>
    inferInstanceAs (Decidable (∀ room ∈ pdu.roomIdOrHash c, createId c room = some pdu.eventId →
      pdu.authEvents = []))
  | .getOrCreateShortroomid _, _ | .getOrCreateShorteventid _, _ | .getAuthChain .., _ | .evict _, _
  | .clearCache, _ | .clearDbCache, _ => .isTrue trivial

end Congruent.AuthChain
