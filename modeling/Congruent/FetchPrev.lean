import Congruent.FetchState

/-!
# `fetch_prev`

The predecessors of an event that the server lacks, asked from its peers by
`/get_missing_events`, with the point before them a later `/state_ids` may ask for.
-/

namespace Congruent

open H
open Call (Ensures Keeps)

/-- What `fetch_prev` returns. -/
structure PrevFetch where
  sorted : List EventId
  fetched : List (EventId × Object)
  anchor : Option EventId
  invalid : Bool

def PrevFetch.empty : PrevFetch := ⟨[], [], none, false⟩

/-- A response being read. -/
structure PrevResponse where
  /-- Events the server lacks. -/
  unknown : List (EventId × Object)
  /-- The topology of the response. -/
  entries : List SortEntry
  invalid : Bool

/-- Whether a predecessor has to be fetched. -/
def Server.needsPrev (s : Server) (id : EventId) : Bool :=
  !s.pduExists id || (s.rejection id).any RejectionCode.isRetryable

def putEvent (events : List (EventId × Object)) (id : EventId) (json : Object) : List (EventId × Object) :=
  events.filter (fun e => e.1 ≠ id) ++ [(id, json)]

def putEntry (entries : List SortEntry) (e : SortEntry) : List SortEntry :=
  entries.filter (fun e' => e'.id ≠ e.id) ++ [e]

def entryOf (id : EventId) (pdu : Pdu) : SortEntry := ⟨id, pdu.prevEvents.dedup, pdu.originServerTs, pdu.depth⟩

/-- The single parent of the last event, when it is not in the response itself. -/
def deepStateIdsAnchor (sorted : List EventId) (entries : List SortEntry) : Option EventId :=
  match sorted.getLast?.bind fun last => entries.find? fun e => e.id = last with
  | some ⟨_, [only], _, _⟩ => if entries.any fun e => e.id = only then none else some only
  | _ => none

/-- The event as it is handled: its JSON without what only this server may say. -/
def trimUnsigned (value : Object) : Object :=
  match value.get "unsigned" with
  | some (.obj unsigned) =>
    if (cleanUnsigned unsigned).isEmpty then value.remove "unsigned"
    else (value.remove "unsigned").insert "unsigned" (.obj (cleanUnsigned unsigned))
  | _ => value.remove "unsigned"

section
variable (plat : Platform)

/-- The first response with events, from `/get_missing_events` or else from
`/event_relationships`. -/
def askMissingEvents (room : RoomId) (latest : EventId) (first : EventId) : List ServerName → H (List RawPdu)
  | [] => pure []
  | server :: servers => do
    match ← ask plat fun w => w.missingEvents server room latest with
    | none => askMissingEvents room latest first servers
    | some (raw :: raws) => pure (raw :: raws)
    | some [] =>
      match ← ask plat fun w => w.eventRelationships server room first with
      | some (raw :: raws) => pure (raw :: raws)
      | _ => askMissingEvents room latest first servers

def readMissing (room : RoomId) (v : RoomVersionId) (acc : PrevResponse) (raw : RawPdu) : H PrevResponse := do
  match ← (genEventIdCanonicalJson plat room v raw).attempt with
  | .error _ => pure { acc with invalid := true }
  | .ok (eid, value) => do
    let entries := match fromIdVal plat eid value room with
      | .ok pdu => putEntry acc.entries (entryOf eid pdu)
      | .error _ => acc.entries
    let exists' ← read fun s => s.pduExists eid
    pure { acc with
      entries := entries
      unknown := if exists' then acc.unknown else acc.unknown ++ [(eid, value)] }

/-- An event of the response that can be handled. -/
def candidate (room : RoomId) (e : EventId × Object) : Option (SortEntry × Object) :=
  match fromIdVal plat e.1 (trimUnsigned e.2) room with
  | .ok pdu => some (entryOf e.1 pdu, trimUnsigned e.2)
  | .error _ => none

def partialAnchor (sorted : List EventId) (entries : List SortEntry) : H (Option EventId) := do
  match sorted.getLast?.bind fun last => entries.find? fun e => e.id = last with
  | none => pure none
  | some last => do
    let unknown ← read fun s => last.parents.filter fun p => !entries.any (fun e => e.id = p) && !s.pduExists p
    match unknown with
    | [only] => pure (some only)
    | _ => pure none

/-- Where a later `/state_ids` is anchored. -/
def prevAnchor (room : RoomId) (entries : List SortEntry) : H (Option EventId) := do
  let sorted := sortTimelineEvents entries
  match deepStateIdsAnchor sorted entries with
  | some anchor => pure (some anchor)
  | none =>
    if ← partialServer plat room then partialAnchor sorted entries else pure none

def fetchPrev (origin : ServerName) (room : RoomId) (latest : EventId) (initial : List EventId)
    (senderServer : Option ServerName) : H PrevFetch := do
  match ← read fun s => initial.filter s.needsPrev with
  | [] => pure .empty
  | first :: _ => do
    let servers ← ask plat fun w => w.federationServers room origin senderServer
    let v ← orElse (← ask plat fun w => w.roomVersion room) (.database "No room version")
    match ← askMissingEvents plat room latest first servers with
    | [] => pure .empty
    | raw :: raws => do
      let response ← (raw :: raws).foldlM (readMissing plat room v) ⟨[], [], false⟩
      let candidates := response.unknown.filterMap (candidate plat room)
      let fetched := candidates.foldl (fun acc c => putEvent acc c.1.id c.2) []
      let entries := candidates.foldl (fun acc c => putEntry acc c.1) []
      let anchor ← prevAnchor plat room response.entries
      pure ⟨sortTimelineEvents entries, fetched, anchor, response.invalid⟩

end

/-! ## What it returns -/

theorem trimUnsigned_remove (value : Object) : (trimUnsigned value).remove "unsigned" =
    value.remove "unsigned" := by
  unfold trimUnsigned
  split
  · split
    · exact Object.remove_same _ _
    · rw [Object.remove_insert, Object.remove_same]
  · exact Object.remove_same _ _

section
variable {plat : Platform} {s : Server} {room : RoomId}

theorem askMissingEvents_keeps (latest first : EventId) :
    ∀ servers, Keeps (Step plat) (askMissingEvents plat room latest first servers) s
  | [] => pure_keeps _
  | server :: servers => by
    unfold askMissingEvents
    refine (ask_keeps _).andThen fun answer => ?_
    split
    · exact askMissingEvents_keeps latest first servers
    · exact pure_keeps _
    · refine (ask_keeps _).andThen fun fallback => ?_
      split
      · exact pure_keeps _
      · exact askMissingEvents_keeps latest first servers

theorem readMissing_ensures {v : RoomVersionId} {acc : PrevResponse} (hb : BatchTaken room acc.unknown s)
    (raw : RawPdu) :
    Ensures (Step plat) (fun acc s => BatchTaken room acc.unknown s) (readMissing plat room v acc raw) s := by
  unfold readMissing
  refine (genEventId_ensures room v raw).attempt.bind fun r s' hr ht => ?_
  split
  · exact Ensures.pure fun _ hr' => hb.later (hr.trans hr')
  · rename_i eid value
    refine (read_keeps _).andThen fun known => Ensures.pure fun s₁ hr' e he => ?_
    simp only at he
    split at he
    · exact (hb e he).later (hr.trans hr')
    · rcases List.mem_append.mp he with he | he
      · exact (hb e he).later (hr.trans hr')
      · rw [List.mem_singleton.mp he]
        exact (ht _ rfl).later hr'

theorem partialAnchor_keeps (sorted : List EventId) (entries : List SortEntry) :
    Keeps (Step plat) (partialAnchor sorted entries) s := by
  unfold partialAnchor
  split
  · exact pure_keeps _
  · refine (read_keeps _).andThen fun unknown => ?_
    split <;> exact pure_keeps _

theorem prevAnchor_keeps (entries : List SortEntry) : Keeps (Step plat) (prevAnchor plat room entries) s := by
  unfold prevAnchor
  simp only
  split
  · exact pure_keeps _
  · refine (partialServer_keeps _).andThen fun b => ?_
    split
    · exact partialAnchor_keeps _ _
    · exact pure_keeps _

def PrevFetch.Ok (room : RoomId) (f : PrevFetch) (s : Server) : Prop :=
  ∀ e ∈ f.fetched, Fetched s.log room e.1 e.2

theorem PrevFetch.Ok.later {f : PrevFetch} {s' : Server} (h : f.Ok room s) (hr : Path plat s s') : f.Ok room s' :=
  fun e he => (h e he).later hr

theorem mem_putEvents {candidates : List (SortEntry × Object)} {e : EventId × Object} :
    ∀ {acc : List (EventId × Object)}, e ∈ candidates.foldl (fun acc c => putEvent acc c.1.id c.2) acc →
      e ∈ acc ∨ ∃ c ∈ candidates, e = (c.1.id, c.2) := by
  induction candidates with
  | nil => exact fun h => .inl h
  | cons c cs ih =>
    intro acc h
    rcases ih h with h | ⟨c', hc', rfl⟩
    · unfold putEvent at h
      rcases List.mem_append.mp h with h | h
      · exact .inl (List.mem_filter.mp h).1
      · exact .inr ⟨c, by simp, List.mem_singleton.mp h⟩
    · exact .inr ⟨c', by simp [hc'], rfl⟩

theorem candidate_fetched {e : EventId × Object} {c : SortEntry × Object} (h : candidate plat room e = some c)
    (ht : Taken s.log room e.1 e.2) : Fetched s.log room c.1.id c.2 := by
  unfold candidate at h
  split at h
  · cases h
    exact ⟨e.2, ht, trimUnsigned_remove e.2⟩
  · cases h

theorem fetchPrev_ensures (origin : ServerName) (latest : EventId) (initial : List EventId)
    (senderServer : Option ServerName) :
    Ensures (Step plat) (PrevFetch.Ok room) (fetchPrev plat origin room latest initial senderServer) s := by
  have hempty : ∀ {s : Server}, Ensures (Step plat) (PrevFetch.Ok room) (pure PrevFetch.empty : H PrevFetch) s :=
    Ensures.pure fun _ _ e he => by cases he
  unfold fetchPrev
  refine (read_keeps _).andThen fun remaining => ?_
  split
  · exact hempty
  · refine (ask_keeps _).andThen fun servers => ?_
    refine (ask_keeps _).andThen fun version => ?_
    refine (orElse_keeps _ _).andThen fun v => ?_
    refine (askMissingEvents_keeps _ _ _).andThen fun raws => ?_
    split
    · exact hempty
    · rename_i raw raws
      have hread : Ensures (Step plat) (fun acc s => BatchTaken room acc.unknown s)
          ((raw :: raws).foldlM (readMissing plat room v) ⟨[], [], false⟩) s :=
        Ensures.foldlM _ (fun _ _ _ hb _ hr => hb.later hr) (fun _ raw _ _ _ hb => readMissing_ensures hb raw)
          (by simp [BatchTaken])
      refine hread.bind fun response s₁ _ hb => ?_
      refine (prevAnchor_keeps _).andThen fun anchor => Ensures.pure fun s₂ hr e he => ?_
      rcases mem_putEvents he with he | ⟨c, hc, rfl⟩
      · cases he
      · obtain ⟨e', he', hc'⟩ := List.mem_filterMap.mp hc
        exact candidate_fetched hc' ((hb e' he').later hr)

end

end Congruent
