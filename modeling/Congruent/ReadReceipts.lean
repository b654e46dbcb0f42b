import Congruent.KeyedMap
import Congruent.Machine

/-!
# Public read receipts

Receipts are kept twice (`read_receipt/data.rs`): a row for each in the stream index,
by room, count and user, and a record for each room and user, by thread. The rows of a
room and user are those that its record names.
-/

namespace Congruent.ReadReceipts

abbrev RoomId := String
abbrev UserId := String
abbrev EventId := String

inductive ReceiptThread where
  | unthreaded
  | main
  | thread (root : EventId)
  deriving DecidableEq

def ReceiptThread.asStr : ReceiptThread → Option String
  | unthreaded => none
  | main => some "main"
  | thread root => some root

def threadKey (thread : ReceiptThread) : String := thread.asStr.getD ""

inductive ReceiptType where
  | fullyRead
  | read
  | readPrivate
  deriving DecidableEq

structure Receipt where
  thread : ReceiptThread
  ts : Option Nat
  deriving DecidableEq

abbrev Users := AList fun _ : UserId => Receipt
abbrev Types := AList fun _ : ReceiptType => Users
abbrev Content := AList fun _ : EventId => Types

structure ReceiptEvent where
  content : Content
  roomId : RoomId
  deriving DecidableEq

/-- The receipts of a user by thread, each with the count of its row. -/
abbrev PublicReadReceipts := AList fun _ : String => Nat × ReceiptEvent

/-- A stored record: by thread, or a single receipt from before there were threads. -/
inductive Record where
  | perThread (receipts : PublicReadReceipts)
  | legacy (count : Nat) (event : ReceiptEvent)

/-- A receipt of an update, and whether it was made up for clients without threads. -/
structure NewReceipt where
  eventId : EventId
  type : ReceiptType
  receipt : Receipt
  synthetic : Bool
  deriving DecidableEq

inductive PduCount where
  | normal (n : Nat)
  | backfilled (n : Nat)
  deriving DecidableEq

/-- What an update reads of the timeline. -/
structure Timeline where
  parseEventId : String → Option EventId
  getPduCount : EventId → Option PduCount
  /-- The events of a room from a position on backwards, up to the first that cannot be
  read. -/
  pdusRev : RoomId → PduCount → List EventId
  getThreadId : EventId → Option EventId

structure Data where
  /-- `readreceiptid_readreceipt`. -/
  stream : RoomId → Nat → UserId → Option ReceiptEvent
  /-- `roomuserid_readreceipt`. -/
  records : RoomId → UserId → Option Record
  count : Nat

/-! ## The receipts of an update -/

section
variable {K V : Type} [DecidableEq K]

def inOrder (le : K → K → Bool) (m : AList fun _ : K => V) : List (K × V) :=
  (m.entries.map fun e => (e.1, e.2)).mergeSort fun a b => le a.1 b.1

end

def ReceiptType.le : ReceiptType → ReceiptType → Bool
  | .read, .fullyRead | .readPrivate, .fullyRead | .readPrivate, .read => false
  | _, _ => true

def events (content : Content) : List (EventId × Types) := inOrder (fun a b => a ≤ b) content

def types (receipts : Types) : List (ReceiptType × Users) := inOrder ReceiptType.le receipts

def newReceipts (user : UserId) (event : ReceiptEvent) : List NewReceipt :=
  (events event.content).flatMap fun (id, receipts) =>
    (types receipts).filterMap fun (type, users) => (users.lookup user).map fun receipt =>
      ⟨id, type, receipt, false⟩

def eventThread (user : UserId) (event : ReceiptEvent) : String :=
  (((events event.content).flatMap fun (_, receipts) => (types receipts).map (·.2)).findSome? fun users =>
    users.lookup user).elim "" fun receipt => threadKey receipt.thread

def existingReceipts (user : UserId) : Option Record → PublicReadReceipts
  | some (.perThread receipts) => receipts
  | some (.legacy count event) => AList.singleton (eventThread user event) (count, event)
  | none => ∅

def addUsers (content : Content) (id : EventId) (type : ReceiptType) (users : Users) : Content :=
  let receipts := (content.lookup id).getD ∅
  content.insert id (receipts.insert type (users ∪ (receipts.lookup type).getD ∅))

def existingEvent (room : RoomId) (receipts : PublicReadReceipts) : ReceiptEvent where
  roomId := room
  content := (inOrder (fun a b => a ≤ b) receipts).foldl (fun content (_, _, event) =>
    (events event.content).foldl (fun content (id, receipts) =>
      (types receipts).foldl (fun content (type, users) => addUsers content id type users) content) content) ∅

namespace Timeline

def nearestMainTimelineEvent (tl : Timeline) (room : RoomId) (count : PduCount) : Option EventId :=
  (tl.pdusRev room count).find? fun id => (tl.getThreadId id).isNone

def findReceipt (tl : Timeline) (user : UserId) (event : ReceiptEvent) (type : ReceiptType)
    (p : ReceiptThread → Bool) : Option EventId :=
  (events event.content).findSome? fun (id, receipts) =>
    (((receipts.lookup type).bind fun users => users.lookup user).filter fun r => p r.thread).bind fun _ =>
      tl.parseEventId id

/-- Whether an event is at or after another, as far as both are known. -/
def atOrAfter (tl : Timeline) (a b : EventId) : Bool :=
  match tl.getPduCount a, tl.getPduCount b with
  | some (.normal n), some (.normal n') => n' ≤ n
  | _, _ => false

def after (tl : Timeline) (a b : EventId) : Bool :=
  match tl.getPduCount a, tl.getPduCount b with
  | some (.normal n), some (.normal n') => n' < n
  | _, _ => false

def synthesize (tl : Timeline) (user : UserId) (existing : ReceiptEvent) (r : NewReceipt) : Option NewReceipt :=
  let copy target : NewReceipt := ⟨target, r.type, { r.receipt with thread := .unthreaded }, true⟩
  if r.receipt.thread = .unthreaded then none
  else
    match (tl.getPduCount r.eventId).bind (tl.nearestMainTimelineEvent existing.roomId) with
    | none => none
    | some target =>
      if target = r.eventId then
        let own := ((existing.content.lookup r.eventId).bind fun receipts => receipts.lookup r.type).bind
          fun users =>
          users.lookup user
        if own.any fun receipt => receipt.thread = .unthreaded then some (copy target) else none
      else
        match tl.findReceipt user existing r.type fun thread => thread = .unthreaded || thread = .main with
        | some id => if tl.atOrAfter id target then none else some (copy target)
        | none => some (copy target)

def synthesizeMsc4102Unthreaded (tl : Timeline) (user : UserId) (receipts : List NewReceipt)
    (existing : ReceiptEvent) :
    List NewReceipt :=
  receipts.filterMap fun r => (tl.parseEventId r.eventId).bind fun id =>
    tl.synthesize user existing { r with eventId := id }

/-- Whether a receipt does not move the read position backwards. -/
def advances (tl : Timeline) (user : UserId) (existing : ReceiptEvent) (r : NewReceipt) : Bool :=
  match tl.findReceipt user existing r.type fun thread => thread = r.receipt.thread with
  | none => true
  | some old => decide (old = r.eventId) || !((tl.parseEventId r.eventId).any fun new => tl.after old new)

def orderedReceipts (tl : Timeline) (user : UserId) (event : ReceiptEvent) (existing : ReceiptEvent) :
    List NewReceipt :=
  let new := newReceipts user event
  (new ++ tl.synthesizeMsc4102Unthreaded user new existing).filter (tl.advances user existing)

end Timeline

/-! ## Storing them -/

def singleEvent (room : RoomId) (user : UserId) (r : NewReceipt) : ReceiptEvent where
  roomId := room
  content := AList.singleton r.eventId (AList.singleton r.type (AList.singleton user r.receipt))

def setRow (stream : RoomId → Nat → UserId → Option ReceiptEvent) (room : RoomId) (count : Nat) (user : UserId)
    (row : Option ReceiptEvent) : RoomId → Nat → UserId → Option ReceiptEvent :=
  fun room' count' user' => if room' = room ∧ count' = count ∧ user' = user then row else stream room' count' user'

def storeReceipt (room : RoomId) (user : UserId) (acc : Data × PublicReadReceipts) (r : NewReceipt) :
    Data × PublicReadReceipts :=
  let thread := threadKey r.receipt.thread
  let count := acc.1.count + 1
  let event := singleEvent room user r
  let cleared :=
    match acc.2.lookup thread with
    | some (old, _) => setRow acc.1.stream room old user none
    | none => acc.1.stream
  ({ acc.1 with stream := setRow cleared room count user (some event), count := count },
    acc.2.insert thread (count, event))

def readreceiptUpdate (tl : Timeline) (d : Data) (user : UserId) (room : RoomId) (event : ReceiptEvent) : Data :=
  if newReceipts user event = [] then d
  else
    let existing := existingReceipts user (d.records room user)
    let ordered := tl.orderedReceipts user event (existingEvent room existing)
    if ordered = [] then d
    else
      let stored := ordered.foldl (storeReceipt room user) (d, existing)
      { stored.1 with
        records := fun room' user' =>
          if room' = room ∧ user' = user then some (.perThread stored.2) else stored.1.records room' user' }

/-- One call, with the timeline it finds. -/
structure Action where
  timeline : Timeline
  user : UserId
  room : RoomId
  event : ReceiptEvent

def step (a : Action) (d : Data) : Option Data := some (readreceiptUpdate a.timeline d a.user a.room a.event)

/-! ## The two indexes -/

/-- The rows of one room and user are those that a record names: each thread has one,
under its own count, and holds a receipt of its thread. -/
structure Named (rows : Nat → Option ReceiptEvent) (user : UserId) (count : Nat) (receipts : PublicReadReceipts) :
    Prop where
  rows : ∀ c event, rows c = some event ↔ ∃ thread, receipts.lookup thread = some (c, event)
  counts : ∀ thread c event, receipts.lookup thread = some (c, event) → c ≤ count
  distinct : ∀ thread thread' c event event', receipts.lookup thread = some (c, event) →
    receipts.lookup thread' = some (c, event') → thread = thread'
  threads : ∀ thread c event, receipts.lookup thread = some (c, event) → eventThread user event = thread

def Data.rows (d : Data) (room : RoomId) (user : UserId) (c : Nat) : Option ReceiptEvent := d.stream room c user

def Data.Indexed (d : Data) : Prop :=
  ∀ room user, Named (d.rows room user) user d.count (existingReceipts user (d.records room user))

section
variable {rows : Nat → Option ReceiptEvent} {room : RoomId} {user : UserId} {count : Nat}
  {receipts : PublicReadReceipts} {acc : Data × PublicReadReceipts}

theorem Named.mono (h : Named rows user count receipts) {count' : Nat} (hle : count ≤ count') :
    Named rows user count' receipts :=
  ⟨h.rows, fun t c e hl => (h.counts t c e hl).trans hle, h.distinct, h.threads⟩

theorem inOrder_singleton {K V : Type} [DecidableEq K] (le : K → K → Bool) (k : K) (v : V) :
    inOrder le (AList.singleton k v : AList fun _ : K => V) = [(k, v)] := by
  simp [inOrder]

theorem eventThread_single (r : NewReceipt) :
    eventThread user (singleEvent room user r) = threadKey r.receipt.thread := by
  have hl : (AList.singleton user r.receipt : Users).lookup user = some r.receipt := by
    rw [← AList.insert_empty, AList.lookup_insert]
  simp [eventThread, singleEvent, events, types, inOrder_singleton, hl]

theorem lookup_insert_pair (receipts : PublicReadReceipts) (t t' : String) (v : Nat × ReceiptEvent) :
    (receipts.insert t v).lookup t' = if t' = t then some v else receipts.lookup t' := by
  by_cases h : t' = t
  · rw [h, AList.lookup_insert, if_pos rfl]
  · rw [AList.lookup_insert_ne h, if_neg h]

theorem storeReceipt_rows (room : RoomId) (user : UserId) (acc : Data × PublicReadReceipts)
    (r : NewReceipt) (c : Nat) :
    (storeReceipt room user acc r).1.rows room user c =
      if c = acc.1.count + 1 then some (singleEvent room user r)
      else if (acc.2.lookup (threadKey r.receipt.thread)).any (fun v => v.1 = c) then none
      else acc.1.rows room user c := by
  unfold storeReceipt Data.rows
  simp only [setRow, true_and, and_true]
  by_cases hc : c = acc.1.count + 1
  · rw [if_pos hc, if_pos hc]
  · rw [if_neg hc, if_neg hc]
    cases hl : acc.2.lookup (threadKey r.receipt.thread) with
    | none => rfl
    | some v =>
      obtain ⟨old, event⟩ := v
      by_cases ho : c = old
      · simp [setRow, ho]
      · simp [setRow, ho, Ne.symm ho]

theorem Named.lookup_any {rows : Nat → Option ReceiptEvent} {count : Nat} {receipts : PublicReadReceipts}
    (h : Named rows user count receipts) {thread thread' : String} {c : Nat} {event : ReceiptEvent}
    (ht : receipts.lookup thread = some (c, event)) :
    (receipts.lookup thread').any (fun v => v.1 = c) = true ↔ thread = thread' := by
  constructor
  · intro hany
    obtain ⟨⟨c', event'⟩, ht', hc⟩ := (Option.any_eq_true ..).mp hany
    simp only [decide_eq_true_eq] at hc
    subst hc
    exact h.distinct _ _ _ _ _ ht ht'
  · rintro rfl
    rw [ht]
    simp

theorem storeReceipt_named (h : Named (acc.1.rows room user) user acc.1.count acc.2) (r : NewReceipt) :
    Named ((storeReceipt room user acc r).1.rows room user) user (storeReceipt room user acc r).1.count
      (storeReceipt room user acc r).2 := by
  have hl : ∀ t, (storeReceipt room user acc r).2.lookup t =
      if t = threadKey r.receipt.thread then some (acc.1.count + 1, singleEvent room user r) else acc.2.lookup t :=
    fun t => lookup_insert_pair _ _ t _
  have hfresh : ∀ t c e, acc.2.lookup t = some (c, e) → c ≠ acc.1.count + 1 := by
    intro t c e ht
    have hle := h.counts t c e ht
    omega
  refine ⟨fun c event => ?_, fun t c e ht => ?_, fun t t' c e e' ht ht' => ?_, fun t c e ht => ?_⟩
  -- the row at the new count is the new one; another goes just when its thread is the receipt's
  · rw [storeReceipt_rows]
    simp only [hl]
    by_cases hc : c = acc.1.count + 1
    · rw [if_pos hc, Option.some.injEq]
      constructor
      · rintro rfl
        exact ⟨_, by rw [if_pos rfl, hc]⟩
      · rintro ⟨t, ht⟩
        split at ht
        · cases ht
          rfl
        · exact absurd hc (hfresh t c event ht)
    · rw [if_neg hc]
      constructor
      · intro hrow
        split at hrow
        · cases hrow
        · rename_i hold
          obtain ⟨t, ht⟩ := (h.rows c event).mp hrow
          exact ⟨t, by rw [if_neg fun htk => hold ((h.lookup_any ht).mpr htk), ht]⟩
      · rintro ⟨t, ht⟩
        split at ht
        · cases ht
          exact absurd rfl hc
        · rename_i hne
          rw [if_neg fun hold => hne ((h.lookup_any ht).mp hold)]
          exact (h.rows c event).mpr ⟨t, ht⟩
  · rw [hl] at ht
    show c ≤ acc.1.count + 1
    split at ht
    · cases ht
      exact Nat.le_refl _
    · have hle := h.counts t c e ht
      omega
  · rw [hl] at ht ht'
    split at ht
    · rename_i htk
      split at ht'
      · rename_i htk'
        rw [htk, htk']
      · cases ht
        exact absurd rfl (hfresh t' _ e' ht')
    · split at ht'
      · cases ht'
        exact absurd rfl (hfresh t _ e ht)
      · exact h.distinct t t' c e e' ht ht'
  · rw [hl] at ht
    split at ht
    · rename_i htk
      cases ht
      rw [eventThread_single, htk]
    · exact h.threads t c e ht

/-- Other rooms and users keep what they have. -/
structure Apart (room : RoomId) (user : UserId) (d d' : Data) : Prop where
  rows : ∀ room' user', ¬ (room' = room ∧ user' = user) → d'.rows room' user' = d.rows room' user'
  records : d'.records = d.records
  count : d.count ≤ d'.count

variable (room user acc) in
theorem storeReceipt_apart (r : NewReceipt) : Apart room user acc.1 (storeReceipt room user acc r).1 := by
  refine ⟨fun room' user' hne => funext fun c => ?_, rfl, Nat.le_succ _⟩
  have hset : ∀ stream c' row, setRow stream room c' user row room' c user' = stream room' c user' := by
    intro stream c' row
    exact if_neg fun h => hne ⟨h.1, h.2.2⟩
  unfold storeReceipt Data.rows
  simp only [hset]
  cases acc.2.lookup (threadKey r.receipt.thread) with
  | none => rfl
  | some v => exact hset _ _ _

variable (room user) in
theorem storeReceipts_named (rs : List NewReceipt) : ∀ {acc : Data × PublicReadReceipts},
    Named (acc.1.rows room user) user acc.1.count acc.2 →
    Named ((rs.foldl (storeReceipt room user) acc).1.rows room user) user
        (rs.foldl (storeReceipt room user) acc).1.count (rs.foldl (storeReceipt room user) acc).2 ∧
      Apart room user acc.1 (rs.foldl (storeReceipt room user) acc).1 := by
  induction rs with
  | nil => exact fun h => ⟨h, fun _ _ _ => rfl, rfl, Nat.le_refl _⟩
  | cons r rs ih =>
    intro acc h
    rw [List.foldl_cons]
    obtain ⟨hn, ha⟩ := ih (storeReceipt_named h r)
    have ha' := storeReceipt_apart room user acc r
    exact ⟨hn, fun room' user' hne => (ha.rows room' user' hne).trans (ha'.rows room' user' hne),
      ha.records.trans ha'.records, ha'.count.trans ha.count⟩

theorem readreceiptUpdate_indexed {d : Data} (h : d.Indexed) (tl : Timeline) (user : UserId) (room : RoomId)
    (event : ReceiptEvent) : (readreceiptUpdate tl d user room event).Indexed := by
  unfold readreceiptUpdate
  split
  · exact h
  · simp only
    split
    · exact h
    · intro room' user'
      have hstart : Named (Data.rows (d, existingReceipts user (d.records room user)).1 room user) user d.count
          (existingReceipts user (d.records room user)) := h room user
      obtain ⟨hn, ha⟩ := storeReceipts_named room user
        (tl.orderedReceipts user event (existingEvent room (existingReceipts user (d.records room user)))) hstart
      by_cases hsame : room' = room ∧ user' = user
      · obtain ⟨rfl, rfl⟩ := hsame
        simp only [and_self, if_true]
        exact hn
      · simp only [hsame, if_false]
        rw [ha.records]
        have hother := (h room' user').mono ha.count
        rwa [← ha.rows room' user' hsame] at hother

end

/-- After every sequence of updates, the rows of a room and user in the stream index are
those at the counts in its record, each holding the recorded receipt, with one entry for
each thread. -/
theorem indexes_agree {d₀ d : Data} (h₀ : d₀.Indexed) (hrun : Reaches step (fun _ _ => True) d₀ d) (room : RoomId)
    (user : UserId) :
    (∀ c event, d.stream room c user = some event ↔
      ∃ thread, (existingReceipts user (d.records room user)).lookup thread = some (c, event)) ∧
    (∀ thread thread' c event event', (existingReceipts user (d.records room user)).lookup
      thread = some (c, event) →
      (existingReceipts user (d.records room user)).lookup thread' = some (c, event') → thread = thread') ∧
    ∀ thread c event, (existingReceipts user (d.records room user)).lookup thread = some (c, event) →
      eventThread user event = thread := by
  have h : d.Indexed := Reaches.invariant h₀ (fun a _ _ h _ hs => by
    cases hs
    exact readreceiptUpdate_indexed h a.timeline a.user a.room a.event) hrun
  exact ⟨(h room user).rows, (h room user).distinct, (h room user).threads⟩

/-! ## A legacy record -/

def legacyReceipt : ReceiptEvent := singleEvent "!r:a" "@u:a" ⟨"$a", .read, ⟨.unthreaded, none⟩, false⟩

def legacyData : Data where
  stream room c user := if room = "!r:a" ∧ c = 1 ∧ user = "@u:a" then some legacyReceipt else none
  records room user := if room = "!r:a" ∧ user = "@u:a" then some (.legacy 1 legacyReceipt) else none
  count := 1

theorem legacyData_indexed : legacyData.Indexed := by
  intro room user
  by_cases h : room = "!r:a" ∧ user = "@u:a"
  · obtain ⟨rfl, rfl⟩ := h
    have hl : ∀ t v, (existingReceipts "@u:a" (legacyData.records "!r:a" "@u:a")).lookup t = some v ↔
        t = "" ∧ v = (1, legacyReceipt) := by
      intro t v
      have hsingle : existingReceipts "@u:a" (legacyData.records "!r:a" "@u:a") =
          AList.singleton "" (1, legacyReceipt) := by
        have hthread : eventThread "@u:a" legacyReceipt = "" := eventThread_single _
        show (AList.singleton (eventThread "@u:a" legacyReceipt) (1, legacyReceipt) : PublicReadReceipts) = _
        rw [hthread]
      rw [hsingle, ← AList.insert_empty, lookup_insert_pair, AList.lookup_empty]
      by_cases ht : t = ""
      · simp [ht, eq_comm]
      · simp [ht]
    refine ⟨fun c event => ?_, fun t c e ht => ?_, fun t t' c e e' ht ht' => ?_, fun t c e ht => ?_⟩
    · simp only [hl]
      simp only [Data.rows, legacyData, true_and, and_true]
      by_cases hc : c = 1
      · simp [hc, eq_comm]
      · simp [hc]
    · obtain ⟨rfl, hv⟩ := (hl _ _).mp ht
      cases hv
      decide
    · rw [((hl _ _).mp ht).1, ((hl _ _).mp ht').1]
    · obtain ⟨rfl, hv⟩ := (hl _ _).mp ht
      cases hv
      exact eventThread_single _
  · have hrecord : legacyData.records room user = none := if_neg h
    have hrow : ∀ c, legacyData.rows room user c = none := fun c => if_neg fun hc => h ⟨hc.1, hc.2.2⟩
    rw [hrecord]
    refine ⟨fun c event => ?_, fun t c e ht => ?_, fun t t' c e e' ht => ?_, fun t c e ht => ?_⟩
    · rw [hrow]
      constructor
      · intro hc
        cases hc
      · rintro ⟨t, ht⟩
        cases ht
    · cases ht
    · cases ht
    · cases ht

def mainTimeline : Timeline where
  parseEventId id := some id
  getPduCount id := (List.lookup id [("$a", 1), ("$b", 2)]).map .normal
  pdusRev _ count := if count = .normal 2 then ["$b", "$a"] else ["$a"]
  getThreadId _ := none

/-- A receipt in the main thread is recorded beside the legacy one. -/
theorem main_receipt_indexed :
    let r : NewReceipt := ⟨"$b", .read, ⟨.main, some 5⟩, false⟩
    let d := readreceiptUpdate mainTimeline legacyData "@u:a" "!r:a" (singleEvent "!r:a" "@u:a" r)
    d.stream "!r:a" 2 "@u:a" = some (singleEvent "!r:a" "@u:a" r) ∧
      ∃ thread, (existingReceipts "@u:a" (d.records "!r:a" "@u:a")).lookup thread =
        some (2, singleEvent "!r:a" "@u:a" r) := by
  intro r d
  have hnew : newReceipts "@u:a" (singleEvent "!r:a" "@u:a" r) = [r] := by decide +kernel
  have hordered : mainTimeline.orderedReceipts "@u:a" (singleEvent "!r:a" "@u:a" r)
      (existingEvent "!r:a" (existingReceipts "@u:a" (legacyData.records "!r:a" "@u:a"))) = [r] := by decide +kernel
  have hrow : d.stream "!r:a" 2 "@u:a" = some (singleEvent "!r:a" "@u:a" r) := by
    have hd : d = readreceiptUpdate mainTimeline legacyData "@u:a" "!r:a" (singleEvent "!r:a" "@u:a" r) := rfl
    rw [hd, readreceiptUpdate, hnew, if_neg (by simp)]
    simp only [hordered]
    rfl
  have hagree := indexes_agree legacyData_indexed
    (.next ⟨mainTimeline, "@u:a", "!r:a", singleEvent "!r:a" "@u:a" r⟩ .init trivial rfl) "!r:a" "@u:a"
  exact ⟨hrow, (hagree.1 2 _).mp hrow⟩

end Congruent.ReadReceipts
