import Congruent.FetchPrev

/-!
# `fetch_and_handle_outliers`

Events asked for by their ids, with the auth chains they need, handled as outliers
in topological order. An event whose auth events are still missing suspends the
batch while they are fetched.
-/

namespace Congruent

open H
open Call (Ensures Keeps)

/-- A request that is under way. -/
inductive FetchRequest where
  | event (id : EventId) (retry : Bool)
  | authChain (id : EventId)
  deriving DecidableEq

structure OutlierFetch where
  /-- `fetched_info`. -/
  fetched : List (EventId × Object)
  graph : List (EventId × List EventId)
  chainFetched : List EventId
  individually : List EventId
  requests : List FetchRequest

def inGraph (graph : List (EventId × List EventId)) (id : EventId) : Bool := (List.lookup id graph).isSome

def putGraph (graph : List (EventId × List EventId)) (id : EventId) (edges : List EventId) :
    List (EventId × List EventId) :=
  graph.filter (fun e => e.1 ≠ id) ++ [(id, edges)]

def addNode (graph : List (EventId × List EventId)) (id : EventId) : List (EventId × List EventId) :=
  if inGraph graph id then graph else putGraph graph id []

/-- The ids of a graph with their edges, by time and id. -/
def sortOutliers (graph : List (EventId × List EventId)) (ts : EventId → Nat) : List EventId :=
  kahnSort ((collect (graph.flatMap fun p => p.1 :: p.2)).map fun id =>
    ⟨id, (List.lookup id graph).getD [], powerKey 0 (ts id) id⟩)

section
variable (plat : Platform)

/-! ## Requests -/

def askFirst {A : Type} (f : World → ServerName → Option A) : List ServerName → H (Option A)
  | [] => pure none
  | server :: servers => do
    match ← ask plat fun w => f w server with
    | some a => pure (some a)
    | none => askFirst f servers

def askServers {A : Type} (f : World → ServerName → Option A) (servers : List ServerName) (retry : Bool) :
    H (Option A) := do
  let order ← ask plat fun w => reorder servers (w.order servers.length)
  match ← askFirst plat f order with
  | some a => pure (some a)
  | none => if retry then askFirst plat f order else pure none

def routingServers (origin : ServerName) (room : RoomId) (explicit : Option (List ServerName)) :
    H (List ServerName) := do
  let servers ← ask plat fun w => explicit.getD (w.federationServers room origin none)
  match servers with
  | first :: second :: third :: rest => do
    let others := second :: third :: rest
    let shuffled ← ask plat fun w => reorder others (w.order others.length)
    pure ((first :: shuffled).take 4)
  | servers => pure servers

/-! ## Answers -/

def createVersion (raw : RawPdu) : Option RoomVersionId :=
  raw.bind fun json =>
    if (json.get "type").bind Value.asStr = some "m.room.create" then
      plat.parseVersion ((((json.get "content").bind fun c => c.get "room_version").bind Value.asStr).getD "1")
    else none

def answerVersion (create : Option Pdu) (roomVersion : RoomVersionId) (raw : RawPdu) : Except HErr RoomVersionId :=
  match create with
  | some create => getRoomVersionId plat create
  | none => .ok ((createVersion plat raw).getD roomVersion)

def authEventIds (value : Object) : List EventId :=
  (((value.get "auth_events").bind Value.asArray).getD []).filterMap fun v => v.asStr.bind plat.codec.parseEventId

structure AuthScan where
  graph : List (EventId × List EventId)
  next : List EventId
  missing : Bool

def scanAuthEvent (acc : AuthScan) (aid : EventId) : H AuthScan := do
  if inGraph acc.graph aid then pure { acc with next := acc.next ++ [aid] }
  else if ← read fun s => s.pduExists aid then
    pure { acc with graph := putGraph acc.graph aid [], next := acc.next ++ [aid] }
  else if ← ask plat fun w => w.backingOff aid then pure acc
  else if plat.maxFetchPrevEvents ≤ acc.graph.length then pure acc
  else pure ⟨putGraph acc.graph aid [], acc.next ++ [aid], true⟩

/-- An event has come. Another id than the one asked for is only warned about. -/
def eventAnswered (create : Option Pdu) (room : RoomId) (roomVersion : RoomVersionId) (id : EventId)
    (st : OutlierFetch) (answer : Option (List RawPdu)) : H OutlierFetch := do
  match answer with
  | some (raw :: _) =>
    match answerVersion plat create roomVersion raw with
    | .error _ => pure st
    | .ok v =>
      match ← (genEventIdCanonicalJson plat room v raw).attempt with
      | .error _ => pure st
      | .ok (_, value) => do
        note plat (.answered room id value)
        let scan ← (authEventIds plat value).foldlM (scanAuthEvent plat) ⟨st.graph, [], false⟩
        pure { st with
          fetched := putEvent st.fetched id value
          graph := putGraph scan.graph id scan.next.dedup
          requests := if scan.missing then st.requests ++ [.authChain id] else st.requests }
  | _ => pure st

def chainEvent (room : RoomId) (roomVersion : RoomVersionId) (st : OutlierFetch)
    (raw : RawPdu) : H OutlierFetch := do
  match ← (genEventIdCanonicalJson plat room roomVersion raw).attempt with
  | .error _ => pure st
  | .ok (eid, value) =>
    if inGraph st.graph eid || (List.lookup eid st.fetched).isSome then pure st
    else if ← read fun s => s.pduExists eid then pure st
    else pure { st with
      fetched := putEvent st.fetched eid value
      graph := putGraph st.graph eid (authEventIds plat value).dedup }

def chainAnswered (room : RoomId) (roomVersion : RoomVersionId) (st : OutlierFetch)
    (answer : Option (List RawPdu)) :
    H OutlierFetch :=
  match answer with
  | some raws => raws.foldlM (chainEvent plat room roomVersion) st
  | none => pure st

def answerRequest (servers : List ServerName) (create : Option Pdu) (room : RoomId) (roomVersion : RoomVersionId)
    (st : OutlierFetch) (request : FetchRequest) : H OutlierFetch := do
  match request with
  | .event id retry => do
    let answer ← askServers plat (fun w server => w.getEvent server id) servers retry
    eventAnswered plat create room roomVersion id st answer
  | .authChain id => do
    let answer ← askServers plat (fun w server => w.eventAuth server room id) servers true
    chainAnswered plat room roomVersion st answer

def drainRequests (servers : List ServerName) (create : Option Pdu) (room : RoomId) (roomVersion : RoomVersionId) :
    Nat → OutlierFetch → H OutlierFetch
  | 0, _ => throw (.database "too many requests")
  | n + 1, st => do
    let i ← ask plat fun w => (w.order st.requests.length).headD 0 % st.requests.length
    match st.requests[i]? with
    | none => pure st
    | some request => do
      let st ← answerRequest plat servers create room roomVersion
        { st with requests := st.requests.eraseIdx i } request
      drainRequests servers create room roomVersion n st

/-! ## Handling -/

structure OutlierPass where
  fetch : OutlierFetch
  processed : List (EventId × (Pdu × Object))
  suspended : Bool

def OutlierPass.putBack (pass : OutlierPass) (id : EventId) (value : Object) : OutlierPass :=
  { pass with fetch := { pass.fetch with fetched := putEvent pass.fetch.fetched id value } }

/-- Asks for one missing auth event by itself, unless it is backed off from. -/
def requestAuthEvent (acc : OutlierFetch × Bool) (aid : EventId) : H (OutlierFetch × Bool) := do
  let graph := addNode acc.1.graph aid
  if ← ask plat fun w => w.backingOff aid then pure ({ acc.1 with graph := graph }, acc.2)
  else if acc.1.requests.contains (.event aid true) then pure ({ acc.1 with graph := graph }, true)
  else pure ({ acc.1 with graph := graph, requests := acc.1.requests ++ [.event aid true] }, true)

/-- What to do about missing auth events: ask for the chain first, then for each of
them, and then reject the event. -/
def missingAuth (room : RoomId) (pass : OutlierPass) (id : EventId) (value : Object) (missing : List EventId) :
    H OutlierPass := do
  let fetch := pass.fetch
  if !fetch.chainFetched.contains id then
    pure { (pass.putBack id value) with
      fetch := { (pass.putBack id value).fetch with
        chainFetched := id :: fetch.chainFetched
        requests := fetch.requests ++ [.authChain id]
        graph := missing.foldl addNode fetch.graph }
      suspended := true }
  else if !fetch.individually.contains id then do
    let (fetch, scheduled) ← missing.foldlM (requestAuthEvent plat)
      ({ fetch with individually := id :: fetch.individually }, false)
    let pass := { pass with fetch := fetch }
    pure (if scheduled then { (pass.putBack id value) with suspended := true } else pass)
  else do
    markEventRejected plat id .missingAuthEvent
    addPduOutlier plat room id value
    pure pass

def handleOutlierOf (n : Nat) (origin : ServerName) (create : Option Pdu) (room : RoomId)
    (roomVersion : RoomVersionId)
    (skipSigVerify : Bool) (pass : OutlierPass) (e : EventId × Object) : H OutlierPass := do
  if pass.suspended then pure (pass.putBack e.1 e.2)
  else if ← ask plat fun w => w.backingOff e.1 then pure pass
  else
    match ← (handleOutlierPdu plat origin create room roomVersion .beforeStateIds n e.1 e.2
      skipSigVerify).attempt with
    | .ok info => pure { pass with processed := pass.processed ++ [(e.1, info)] }
    | .error (.missingAuthEvents missing) => missingAuth plat room pass e.1 e.2 missing
    | .error _ => pure pass

def OutlierFetch.inOrder (fetch : OutlierFetch) : List (EventId × Object) :=
  let ts (id : EventId) : Nat :=
    match (List.lookup id fetch.fetched).bind fun value => (value.get "origin_server_ts").bind Value.asI64 with
    | some n => n.toNat
    | none => 0
  (sortOutliers fetch.graph ts).dedup.filterMap fun id => (List.lookup id fetch.fetched).map
    fun value => (id, value)

def handleOutliers (servers : List ServerName) (origin : ServerName) (create : Option Pdu) (room : RoomId)
    (roomVersion : RoomVersionId) (skipSigVerify : Bool) (m : Nat) : Nat → OutlierPass → H OutlierPass
  | 0, _ => throw (.database "too many passes")
  | n + 1, pass => do
    let fetch ← drainRequests plat servers create room roomVersion m pass.fetch
    let pass ← fetch.inOrder.foldlM (handleOutlierOf plat m origin create room roomVersion skipSigVerify)
      { pass with fetch := { fetch with fetched := [] }, suspended := false }
    if pass.suspended then handleOutliers servers origin create room roomVersion skipSigVerify m n pass else
      pure pass

def seedOutlier (acc : OutlierFetch × List (EventId × Pdu)) (id : EventId) :
    H (OutlierFetch × List (EventId × Pdu)) := do
  match ← read fun s => s.getPdu plat id with
  | some pdu => pure (acc.1, acc.2 ++ [(id, pdu)])
  | none =>
    if ← read fun s => s.softFailed id then pure acc
    else if ← ask plat fun w => w.backingOff id then pure acc
    else pure ({ acc.1 with
      graph := putGraph acc.1.graph id []
      requests := acc.1.requests ++ [.event id false] }, acc.2)

def fetchAndHandleOutliers (n : Nat) (origin : ServerName) (ids : List EventId)
    (create : Option Pdu) (room : RoomId)
    (skipSigVerify : Bool) (roomVersion : RoomVersionId) (explicit : Option (List ServerName)) :
    H (List (Pdu × Option Object)) := do
  let servers ← routingServers plat origin room explicit
  let (fetch, known) ← ids.foldlM (seedOutlier plat) (⟨[], [], [], [], []⟩, [])
  let pass ← handleOutliers plat servers origin create room roomVersion skipSigVerify n n ⟨fetch, [], false⟩
  pure ((collect ids).filterMap fun id => match List.lookup id known with
    | some pdu => some (pdu, none)
    | none => (List.lookup id pass.processed).map fun info => (info.1, some info.2))

end

/-! ## What it writes -/

section
variable {plat : Platform} {s : Server} {room : RoomId} {roomVersion : RoomVersionId} {create : Option Pdu}

theorem askFirst_keeps {A : Type} (f : World → ServerName → Option A) :
    ∀ servers, Keeps (Step plat) (askFirst plat f servers) s
  | [] => pure_keeps _
  | server :: servers => by
    unfold askFirst
    refine (ask_keeps _).andThen fun answer => ?_
    split
    · exact pure_keeps _
    · exact askFirst_keeps f servers

theorem askServers_keeps {A : Type} (f : World → ServerName → Option A) (servers : List ServerName) (retry : Bool) :
    Keeps (Step plat) (askServers plat f servers retry) s := by
  unfold askServers
  refine (ask_keeps _).andThen fun order => (askFirst_keeps f order).andThen fun answer => ?_
  split
  · exact pure_keeps _
  · split
    · exact askFirst_keeps f order
    · exact pure_keeps _

theorem routingServers_keeps (origin : ServerName) (explicit : Option (List ServerName)) :
    Keeps (Step plat) (routingServers plat origin room explicit) s := by
  unfold routingServers
  refine (ask_keeps _).andThen fun servers => ?_
  split
  · exact (ask_keeps _).andThen fun _ => pure_keeps _
  · exact pure_keeps _

def FetchTaken (room : RoomId) (fetch : OutlierFetch) (s : Server) : Prop := BatchTaken room fetch.fetched s

theorem BatchTaken.put {events : List (EventId × Object)} (hb : BatchTaken room events s) {id : EventId}
    {value : Object} (ht : Taken s.log room id value) : BatchTaken room (putEvent events id value) s := by
  intro e he
  rcases List.mem_append.mp he with he | he
  · exact hb e (List.mem_filter.mp he).1
  · rw [List.mem_singleton.mp he]
    exact ht

theorem scanAuthEvent_keeps (acc : AuthScan) (aid : EventId) : Keeps (Step plat)
    (scanAuthEvent plat acc aid) s := by
  unfold scanAuthEvent
  split
  · exact pure_keeps _
  · refine (read_keeps _).andThen fun known => ?_
    split
    · exact pure_keeps _
    · refine (ask_keeps _).andThen fun backing => ?_
      split
      · exact pure_keeps _
      · split <;> exact pure_keeps _

section
variable {fetch : OutlierFetch} (hf : FetchTaken room fetch s)

include hf

theorem fetch_unchanged : Ensures (Step plat) (FetchTaken room) (pure fetch : H OutlierFetch) s :=
  Ensures.pure fun _ hr => hf.later hr

theorem eventAnswered_ensures (id : EventId) (answer : Option (List RawPdu)) :
    Ensures (Step plat) (FetchTaken room) (eventAnswered plat create room roomVersion id fetch answer) s := by
  unfold eventAnswered
  split
  · split
    · exact fetch_unchanged hf
    · rename_i v _
      refine (genEventId_ensures room v _).attempt.keeps.andThen fun r => ?_
      split
      · exact fetch_unchanged hf
      · rename_i value
        refine (note_ensures (m := .answered room id value) fun _ _ => trivial).bind fun _ s₁ hr₁ hm => ?_
        refine (Ensures.foldlM_keeps _ fun acc aid _ => scanAuthEvent_keeps acc aid).andThen fun scan => ?_
        refine Ensures.pure fun s₂ hr₂ => ?_
        exact (hf.later (hr₁.trans hr₂)).put (.answered (Path.log hr₂ hm))
  · exact fetch_unchanged hf

theorem chainEvent_ensures (raw : RawPdu) :
    Ensures (Step plat) (FetchTaken room) (chainEvent plat room roomVersion fetch raw) s := by
  unfold chainEvent
  refine (genEventId_ensures room roomVersion raw).attempt.bind fun r s₁ hr₁ ht => ?_
  have hf₁ : FetchTaken room fetch s₁ := hf.later hr₁
  split
  · exact fetch_unchanged hf₁
  · split
    · exact fetch_unchanged hf₁
    · refine (read_keeps _).andThen fun known => ?_
      split
      · exact fetch_unchanged hf₁
      · exact Ensures.pure fun s₂ hr₂ => (hf₁.later hr₂).put ((ht _ rfl).later hr₂)

theorem answerRequest_ensures (servers : List ServerName) (request : FetchRequest) :
    Ensures (Step plat) (FetchTaken room) (answerRequest plat servers create room roomVersion fetch request) s := by
  unfold answerRequest
  cases request with
  | event id retry => exact (askServers_keeps _ _ _).andThen fun answer => eventAnswered_ensures hf id answer
  | authChain id =>
    refine (askServers_keeps _ _ _).andThen fun answer => ?_
    unfold chainAnswered
    cases answer with
    | none => exact fetch_unchanged hf
    | some raws =>
      exact Ensures.foldlM raws (fun _ _ _ h _ hr => h.later hr) (fun _ raw _ _ _ h => chainEvent_ensures h raw) hf

end

theorem drainRequests_ensures (servers : List ServerName) : ∀ (n : Nat) {s : Server} {fetch : OutlierFetch},
    FetchTaken room fetch s →
    Ensures (Step plat) (FetchTaken room) (drainRequests plat servers create room roomVersion n fetch) s
  | 0, _, _, _ => Ensures.throw
  | n + 1, s, fetch, hf => by
    unfold drainRequests
    refine (ask_keeps _).andThen fun i => ?_
    split
    · exact fetch_unchanged hf
    · rename_i request _
      have hf' : FetchTaken room { fetch with requests := fetch.requests.eraseIdx i } s := hf
      exact (answerRequest_ensures hf' servers request).bind fun _ _ _ h => drainRequests_ensures servers n h

/-! ### Handling -/

/-- The events left for the next pass were taken under their ids. -/
def PassTaken (room : RoomId) (pass : OutlierPass) (s : Server) : Prop := FetchTaken room pass.fetch s

theorem PassTaken.putBack {pass : OutlierPass} (hp : PassTaken room pass s) {id : EventId} {value : Object}
    (ht : Taken s.log room id value) : PassTaken room (pass.putBack id value) s :=
  BatchTaken.put hp ht

theorem requestAuthEvent_ensures {acc : OutlierFetch × Bool} (hf : FetchTaken room acc.1 s) (aid : EventId) :
    Ensures (Step plat) (fun r s => FetchTaken room r.1 s) (requestAuthEvent plat acc aid) s := by
  unfold requestAuthEvent
  simp only
  refine (ask_keeps _).andThen fun backing => ?_
  split
  · exact Ensures.pure fun _ hr => hf.later hr
  · split <;> exact Ensures.pure fun _ hr => hf.later hr

section
variable {pass : OutlierPass} (hp : PassTaken room pass s)

include hp

theorem missingAuth_ensures {id : EventId} {value : Object} (ht : Taken s.log room id value)
    (missing : List EventId) :
    Ensures (Step plat) (PassTaken room) (missingAuth plat room pass id value missing) s := by
  unfold missingAuth
  simp only
  split
  · exact Ensures.pure fun s₁ hr => PassTaken.putBack (hp.later hr) (ht.later hr)
  · split
    · have hrequests : Ensures (Step plat) (fun r s => FetchTaken room r.1 s)
        (missing.foldlM (requestAuthEvent plat)
          ({ pass.fetch with individually := id :: pass.fetch.individually }, false)) s :=
        Ensures.foldlM missing (fun _ _ _ h _ hr => h.later hr)
          (fun _ aid _ _ _ h => requestAuthEvent_ensures h aid) hp
      refine hrequests.bind fun r s₁ hr₁ hr => Ensures.pure fun s₂ hr₂ => ?_
      have hpass : PassTaken room { pass with fetch := r.1 } s₂ := hr.later hr₂
      split
      · exact hpass.putBack (ht.later (hr₁.trans hr₂))
      · exact hpass
    · refine (markEventRejected_keeps _ _).andThen fun _ => (addPduOutlier_keeps ht.traced).andThen fun _ => ?_
      exact Ensures.pure fun _ hr => hp.later hr

theorem handleOutlierOf_ensures (n : Nat) (origin : ServerName) {e : EventId × Object}
    (ht : Taken s.log room e.1 e.2) :
    Ensures (Step plat) (PassTaken room) (handleOutlierOf plat n origin create room roomVersion
      false pass e) s := by
  unfold handleOutlierOf
  split
  · exact Ensures.pure fun _ hr => PassTaken.putBack (hp.later hr) (ht.later hr)
  · refine (ask_keeps _).andThen fun backing => ?_
    split
    · exact Ensures.pure fun _ hr => hp.later hr
    · refine (handleOutlierPdu_taken origin create roomVersion _ n ht.fetched).attempt.bind fun r s₁ hr₁ _ => ?_
      have hp₁ : PassTaken room pass s₁ := hp.later hr₁
      split
      · exact Ensures.pure fun _ hr => hp₁.later hr
      · exact missingAuth_ensures hp₁ (ht.later hr₁) _
      · exact Ensures.pure fun _ hr => hp₁.later hr

end

theorem mem_inOrder {fetch : OutlierFetch} {e : EventId × Object} (h : e ∈ fetch.inOrder) : e ∈ fetch.fetched := by
  unfold OutlierFetch.inOrder at h
  simp only [List.mem_filterMap, Option.map_eq_some_iff] at h
  obtain ⟨id, _, value, hl, rfl⟩ := h
  obtain ⟨l, l', hll, _⟩ := List.lookup_eq_some_iff.mp hl
  rw [hll]
  simp

theorem handleOutliers_keeps (servers : List ServerName) (origin : ServerName) (m : Nat) :
    ∀ (n : Nat) {s : Server} {pass : OutlierPass}, PassTaken room pass s →
    Keeps (Step plat) (handleOutliers plat servers origin create room roomVersion false m n pass) s
  | 0, _, _, _ => Ensures.throw
  | n + 1, s, pass, hp => by
    unfold handleOutliers
    refine (drainRequests_ensures servers m hp).bind fun fetch s₁ _ hf => ?_
    have hempty : PassTaken room { pass with fetch := { fetch with fetched := [] }, suspended := false } s₁ := by
      intro e he
      cases he
    refine (Ensures.foldlM _ (fun _ _ _ h _ hr => h.later hr) (fun _ e he _ hr h => ?_) hempty).bind
      fun pass' s₂ _ h => ?_
    · exact handleOutlierOf_ensures h m origin ((hf e (mem_inOrder he)).later hr)
    · split
      · exact handleOutliers_keeps servers origin m n h
      · exact pure_keeps _

theorem seedOutlier_ensures {acc : OutlierFetch × List (EventId × Pdu)}
    (hf : FetchTaken room acc.1 s) (id : EventId) :
    Ensures (Step plat) (fun r s => FetchTaken room r.1 s) (seedOutlier plat acc id) s := by
  unfold seedOutlier
  refine (read_keeps _).andThen fun pdu => ?_
  split
  · exact Ensures.pure fun _ hr => hf.later hr
  · refine (read_keeps _).andThen fun failed => ?_
    split
    · exact Ensures.pure fun _ hr => hf.later hr
    · refine (ask_keeps _).andThen fun backing => ?_
      split <;> exact Ensures.pure fun _ hr => hf.later hr

theorem fetchAndHandleOutliers_keeps (n : Nat) (origin : ServerName) (ids : List EventId)
    (explicit : Option (List ServerName)) :
    Keeps (Step plat) (fetchAndHandleOutliers plat n origin ids create room false roomVersion explicit) s := by
  unfold fetchAndHandleOutliers
  refine (routingServers_keeps origin explicit).andThen fun servers => ?_
  have hempty : FetchTaken room (⟨[], [], [], [], []⟩ : OutlierFetch) s := by
    intro e he
    cases he
  have hseeds : Ensures (Step plat) (fun r s => FetchTaken room r.1 s)
      (ids.foldlM (seedOutlier plat) ((⟨[], [], [], [], []⟩ : OutlierFetch), [])) s :=
    Ensures.foldlM ids (fun _ _ _ h _ hr => h.later hr) (fun _ id _ _ _ h => seedOutlier_ensures h id) hempty
  refine hseeds.bind fun seeds s₁ _ hf => ?_
  have hpass : PassTaken room ⟨seeds.1, [], false⟩ s₁ := hf
  exact (handleOutliers_keeps servers origin n n hpass).andThen fun _ => pure_keeps _

end

end Congruent
