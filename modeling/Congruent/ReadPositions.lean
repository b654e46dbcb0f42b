import Congruent.PrivateReads

/-!
# Read positions

An update compares each receipt with a merge of what the user has in all threads, where
the receipts of two threads at one event hide each other, and its record has one receipt
for each thread. A position moves forward while it is seen in the merge and nothing else is
stored under its thread.
-/

namespace Congruent.ReadReceipts

structure Position where
  room : RoomId
  user : UserId
  type : ReceiptType
  thread : ReceiptThread

def Position.eventIn (p : Position) (event : ReceiptEvent) : Option EventId :=
  (events event.content).findSome? fun (id, receipts) =>
    (((receipts.lookup p.type).bind fun users => users.lookup p.user).filter fun r => r.thread = p.thread).map
      fun _ => id

def Data.recorded (d : Data) (p : Position) : Option EventId :=
  ((existingReceipts p.user (d.records p.room p.user)).lookup (threadKey p.thread)).bind
    fun entry => p.eventIn entry.2

def Data.merged (d : Data) (room : RoomId) (user : UserId) : ReceiptEvent :=
  existingEvent room (existingReceipts user (d.records room user))

def Action.receipts (a : Action) (d : Data) : List NewReceipt :=
  let new := newReceipts a.user a.event
  new ++ a.timeline.synthesizeMsc4102Unthreaded a.user new (d.merged a.room a.user)

def Action.Live (a : Action) (counts : EventId → Option Nat) (id : EventId) : Prop :=
  ∃ n, counts id = some n ∧ a.timeline.parseEventId id = some id ∧ a.timeline.getPduCount id = some (.normal n)

/-- What a call finds and brings for a position that is recorded at an event: the comparison
sees the event, and the receipts it stores in the entry of its thread are of its type and
thread, all at events with live counts. -/
structure Plain (counts : EventId → Option Nat) (p : Position) (a : Action) (d : Data) (id : EventId) : Prop where
  live : a.Live counts id
  seen : a.timeline.findReceipt p.user (d.merged p.room p.user) p.type (fun thread => thread = p.thread) = some id
  own : ∀ r ∈ a.receipts d, a.timeline.advances p.user (d.merged p.room p.user) r = true →
    threadKey r.receipt.thread = threadKey p.thread →
      r.type = p.type ∧ r.receipt.thread = p.thread ∧ a.Live counts r.eventId

def PlainStep (counts : EventId → Option Nat) (p : Position) (a : Action) (d : Data) : Prop :=
  a.room = p.room → a.user = p.user → ∀ id, d.recorded p = some id → Plain counts p a d id

section
variable {counts : EventId → Option Nat} {p : Position} {a : Action} {d d' : Data} {id : EventId}

theorem eventIn_single (p : Position) (room : RoomId) {r : NewReceipt} (htype : r.type = p.type)
    (hthread : r.receipt.thread = p.thread) : p.eventIn (singleEvent room p.user r) = some r.eventId := by
  have htypes : (AList.singleton p.type (AList.singleton p.user r.receipt) : Types).lookup p.type =
      some (AList.singleton p.user r.receipt) := by rw [← AList.insert_empty, AList.lookup_insert]
  have husers : (AList.singleton p.user r.receipt : Users).lookup p.user = some r.receipt := by
    rw [← AList.insert_empty, AList.lookup_insert]
  simp [Position.eventIn, singleEvent, events, inOrder_singleton, htype, htypes, husers, Option.filter, hthread]

theorem storeReceipts_lookup (room : RoomId) (user : UserId) (thread : String) : ∀ (rs : List NewReceipt)
    (acc : Data × PublicReadReceipts),
    (rs.foldl (storeReceipt room user) acc).2.lookup thread = acc.2.lookup thread ∨
      ∃ r ∈ rs, threadKey r.receipt.thread = thread ∧
        ∃ c, (rs.foldl (storeReceipt room user) acc).2.lookup thread = some (c, singleEvent room user r)
  | [], _ => .inl rfl
  | r :: rs, acc => by
    rw [List.foldl_cons]
    rcases storeReceipts_lookup room user thread rs (storeReceipt room user acc r) with h | ⟨r', hr', hkey, hl⟩
    · rw [h]
      have hl : (storeReceipt room user acc r).2.lookup thread =
          if thread = threadKey r.receipt.thread then some (acc.1.count + 1, singleEvent room user r)
          else acc.2.lookup thread := lookup_insert_pair _ _ thread _
      rw [hl]
      split
      · rename_i hkey
        exact .inr ⟨r, List.mem_cons_self, hkey.symm, _, rfl⟩
      · exact .inl rfl
    · exact .inr ⟨r', List.mem_cons_of_mem _ hr', hkey, hl⟩

theorem storeReceipts_records (room : RoomId) (user : UserId) : ∀ (rs : List NewReceipt)
    (acc : Data × PublicReadReceipts), (rs.foldl (storeReceipt room user) acc).1.records = acc.1.records
  | [], _ => rfl
  | _ :: rs, _ => storeReceipts_records room user rs _

/-- An update leaves what is recorded of a position, or records the event of a receipt that
is stored under its thread. -/
theorem recorded_step (p : Position) (hs : step a d = some d') : d'.recorded p = d.recorded p ∨
    a.room = p.room ∧ a.user = p.user ∧
      ∃ r ∈ a.receipts d, a.timeline.advances p.user (d.merged p.room p.user) r = true ∧
        threadKey r.receipt.thread = threadKey p.thread ∧ d'.recorded p = p.eventIn
          (singleEvent p.room p.user r) := by
  obtain ⟨tl, user, room, event⟩ := a
  cases hs
  unfold readreceiptUpdate
  split
  · exact .inl rfl
  simp only
  split
  · exact .inl rfl
  unfold Data.recorded
  simp only [storeReceipts_records]
  split
  · rename_i hsame
    obtain ⟨rfl, rfl⟩ := hsame
    rcases storeReceipts_lookup p.room p.user (threadKey p.thread)
        (tl.orderedReceipts p.user event (d.merged p.room p.user))
        (d, existingReceipts p.user (d.records p.room p.user)) with hl | ⟨r, hr, hkey, c, hl⟩
    · exact .inl (congrArg (fun o => o.bind fun entry => p.eventIn entry.2) hl)
    · obtain ⟨hmem, hadv⟩ := List.mem_filter.mp hr
      exact .inr ⟨rfl, rfl, r, hmem, hadv, hkey, congrArg (fun o => o.bind fun entry => p.eventIn entry.2) hl⟩
  · exact .inl rfl

theorem advances_count {existing : ReceiptEvent} {r : NewReceipt} (hlive : a.Live counts id)
    (hnew : a.Live counts r.eventId)
    (hseen : a.timeline.findReceipt p.user existing r.type (fun thread => thread = r.receipt.thread) = some id)
    (h : a.timeline.advances p.user existing r = true) :
    ∃ n n', counts id = some n ∧ counts r.eventId = some n' ∧ n ≤ n' := by
  obtain ⟨n, hn, -, hcount⟩ := hlive
  obtain ⟨n', hn', hparse, hcount'⟩ := hnew
  refine ⟨n, n', hn, hn', ?_⟩
  unfold Timeline.advances at h
  rw [hseen] at h
  simp only [Bool.or_eq_true, decide_eq_true_eq, Bool.not_eq_true', hparse, Option.any_some] at h
  rcases h with rfl | h
  · rw [hn, Option.some.injEq] at hn'
    exact hn'.le
  · unfold Timeline.after at h
    rw [hcount, hcount'] at h
    simpa using h

theorem PlainStep.forward (hplain : PlainStep counts p a d) (hs : step a d = some d')
    (hid : d.recorded p = some id) :
    d'.recorded p = some id ∨ ∃ id' n n', d'.recorded p = some id' ∧ counts id = some n ∧ counts id' = some n' ∧
      n ≤ n' := by
  rcases recorded_step p hs with h | ⟨hroom, huser, r, hr, hadv, hkey, hrec⟩
  · exact .inl (h.trans hid)
  · obtain ⟨hlive, hseen, hown⟩ := hplain hroom huser id hid
    obtain ⟨htype, hthread, hnew⟩ := hown r hr hadv hkey
    rw [eventIn_single p p.room htype hthread] at hrec
    rw [← htype, ← hthread] at hseen
    obtain ⟨n, n', hn, hn', hle⟩ := advances_count hlive hnew hseen hadv
    exact .inr ⟨r.eventId, n, n', hrec, hn, hn', hle⟩

def AtLeast (counts : EventId → Option Nat) (p : Position) (n : Nat) (d : Data) : Prop :=
  ∃ id n', d.recorded p = some id ∧ counts id = some n' ∧ n ≤ n'

theorem PlainStep.atLeast (hplain : PlainStep counts p a d) {n : Nat} (h : AtLeast counts p n d)
    (hs : step a d = some d') : AtLeast counts p n d' := by
  obtain ⟨id, m, hid, hm, hle⟩ := h
  rcases hplain.forward hs hid with hid' | ⟨id', m', n', hid', hm', hn', hle'⟩
  · exact ⟨id, m, hid', hm, hle⟩
  · rw [hm, Option.some.injEq] at hm'
    subst hm'
    exact ⟨id', n', hid', hn', hle.trans hle'⟩

end

/-- Over plain updates a position that is recorded at an event with a live count stays
recorded at events with live counts, which never go back; the private markers of a room,
user and thread never go back in any interleaving of calls, and a call returns true just when
it raises one. -/
theorem read_positions_forward (counts : EventId → Option Nat) (p : Position) :
    (∀ {d₀ d : Data}, Reaches step (PlainStep counts p) d₀ d → ∀ id n, d₀.recorded p = some id →
      counts id = some n →
      ∃ id' n', d.recorded p = some id' ∧ counts id' = some n' ∧ n ≤ n') ∧
    ∀ {s₀ s s' : PrivateState} {a : PrivateAction}, (∀ t ∈ s₀.tasks, t.phase = .waiting) →
      Reaches privateStep (fun _ _ => True) s₀ s → privateStep a s = some s' → Forward s s' a := by
  refine ⟨fun hrun id n hid hn => ?_, private_reads_forward⟩
  have h₀ : AtLeast counts p n _ := ⟨id, n, hid, hn, Nat.le_refl n⟩
  have h : AtLeast counts p n _ := Reaches.invariant h₀ (fun _ _ _ h hplain hs => hplain.atLeast h hs) hrun
  exact h

/-! ## A hidden receipt -/

def emptyData : Data where
  stream _ _ _ := none
  records _ _ := none
  count := 0

def readAt (id : EventId) (thread : ReceiptThread) : Action where
  timeline := mainTimeline
  user := "@u:a"
  room := "!r:a"
  event := singleEvent "!r:a" "@u:a" ⟨id, .read, ⟨thread, none⟩, false⟩

def unthreadedRead : Position where
  room := "!r:a"
  user := "@u:a"
  type := .read
  thread := .unthreaded

def mainCounts (id : EventId) : Option Nat := List.lookup id [("$a", 1), ("$b", 2)]

def afterReads (reads : List Action) : Data :=
  reads.foldl (fun d a => readreceiptUpdate a.timeline d a.user a.room a.event) emptyData

def bothThreads : Data := afterReads [readAt "$b" .unthreaded, readAt "$b" .main]

theorem inOrder_of_pairwise {K V : Type} [DecidableEq K] {le : K → K → Bool} {m : AList fun _ : K => V}
    (h : m.entries.Pairwise fun a b => le a.1 b.1 = true) : inOrder le m = m.entries.map fun e => (e.1, e.2) :=
  List.mergeSort_of_pairwise (List.pairwise_map.mpr h)

theorem bothThreads_inOrder : inOrder (fun a b => a ≤ b)
    (existingReceipts "@u:a" (bothThreads.records "!r:a" "@u:a")) =
    (existingReceipts "@u:a" (bothThreads.records "!r:a" "@u:a")).entries.map fun e => (e.1, e.2) :=
  inOrder_of_pairwise (by decide +kernel)

theorem bothThreads_ordered : mainTimeline.orderedReceipts "@u:a" (readAt "$a" .unthreaded).event
    (existingEvent "!r:a" (existingReceipts "@u:a" (bothThreads.records "!r:a" "@u:a"))) =
      [⟨"$a", .read, ⟨.unthreaded, none⟩, false⟩] := by
  unfold existingEvent
  rw [bothThreads_inOrder]
  decide +kernel

theorem bothThreads_recorded :
    (readreceiptUpdate mainTimeline bothThreads "@u:a" "!r:a" (readAt "$a" .unthreaded).event).recorded
      unthreadedRead =
      some "$a" := by
  have hnew : newReceipts "@u:a" (readAt "$a" .unthreaded).event ≠ [] := by decide +kernel
  rw [readreceiptUpdate, if_neg hnew]
  simp only [bothThreads_ordered]
  decide +kernel

def LiveStep (counts : EventId → Option Nat) (a : Action) (_ : Data) : Prop :=
  ∀ r ∈ newReceipts a.user a.event, a.Live counts r.eventId

theorem readAt_live {id : EventId} {n : Nat} (thread : ReceiptThread) (hid : mainCounts id = some n) :
    (readAt id thread).Live mainCounts id :=
  ⟨n, hid, rfl, congrArg (Option.map PduCount.normal) hid⟩

theorem newReceipts_readAt (id : EventId) (thread : ReceiptThread) :
    newReceipts "@u:a" (readAt id thread).event = [⟨id, .read, ⟨thread, none⟩, false⟩] := by
  have hl : (AList.singleton "@u:a" ⟨thread, none⟩ : Users).lookup "@u:a" = some ⟨thread, none⟩ := by
    rw [← AList.insert_empty, AList.lookup_insert]
  simp [newReceipts, readAt, singleEvent, events, types, inOrder_singleton, hl]

theorem liveStep_readAt {id : EventId} {n : Nat} (thread : ReceiptThread)
    (hid : mainCounts id = some n) (d : Data) :
    LiveStep mainCounts (readAt id thread) d := by
  intro r hr
  have hr : r ∈ newReceipts "@u:a" (readAt id thread).event := hr
  rw [newReceipts_readAt, List.mem_singleton] at hr
  rw [hr]
  exact readAt_live thread hid

/-- A user has read unthreaded and in the main thread up to one event, and a stale
unthreaded receipt moves the first back. -/
theorem stale_receipt_recorded :
    ¬ ∀ (p : Position) (counts : EventId → Option Nat) (d d' : Data), Reaches step (LiveStep counts) emptyData d →
      Reaches step (LiveStep counts) d d' → ∀ id id' n n', d.recorded p = some id → d'.recorded p = some id' →
        counts id = some n → counts id' = some n' → n ≤ n' := by
  intro h
  have hb : mainCounts "$b" = some 2 := rfl
  have ha : mainCounts "$a" = some 1 := rfl
  have hrun : Reaches step (LiveStep mainCounts) emptyData bothThreads :=
    .next (readAt "$b" .main) (.next (readAt "$b" .unthreaded) .init (liveStep_readAt _ hb _) rfl)
      (liveStep_readAt _ hb _) rfl
  have hle := h unthreadedRead mainCounts bothThreads _ hrun
    (.next (readAt "$a" .unthreaded) .init (liveStep_readAt _ ha _) rfl) "$b" "$a" 2 1 (by decide +kernel)
    bothThreads_recorded hb ha
  exact absurd hle (by decide)

/-! ## A run forward -/

def twoMarkers : PrivateState where
  records _ _ := none
  tasks := [⟨⟨"!r:a", "@u:a", 2, (readAt "$b" .unthreaded).event⟩, .waiting⟩,
    ⟨⟨"!r:a", "@u:a", 1, (readAt "$a" .unthreaded).event⟩, .waiting⟩]

def markerRun : List PrivateAction := [⟨0, none⟩, ⟨0, none⟩, ⟨0, some 7⟩, ⟨0, none⟩, ⟨1, none⟩, ⟨1, none⟩]

theorem read_positions_forward_unthreaded :
    (∃ id' n', (afterReads [readAt "$a" .unthreaded, readAt "$b" .unthreaded]).recorded unthreadedRead = some id' ∧
      mainCounts id' = some n' ∧ 1 ≤ n') ∧
    ∃ s s', runWhile privateStep (fun _ _ => True) markerRun twoMarkers = some s ∧
      privateStep ⟨1, none⟩ s = some s' ∧ Forward s s' ⟨1, none⟩ := by
  have ha : mainCounts "$a" = some 1 := rfl
  have hb : mainCounts "$b" = some 2 := rfl
  have hplain : PlainStep mainCounts unthreadedRead (readAt "$b" .unthreaded)
      (afterReads [readAt "$a" .unthreaded]) := by
    intro _ _ id hid
    have hrecorded : (afterReads [readAt "$a" .unthreaded]).recorded unthreadedRead = some "$a" := by decide +kernel
    have hreceipts : (readAt "$b" .unthreaded).receipts (afterReads [readAt "$a" .unthreaded]) =
        [⟨"$b", .read, ⟨.unthreaded, none⟩, false⟩] := by decide +kernel
    rw [hrecorded, Option.some.injEq] at hid
    subst hid
    refine ⟨⟨1, ha, rfl, rfl⟩, by decide +kernel, fun r hr _ _ => ?_⟩
    rw [hreceipts, List.mem_singleton] at hr
    subst hr
    exact ⟨rfl, rfl, readAt_live _ hb⟩
  have hrun : Reaches step (PlainStep mainCounts unthreadedRead) (afterReads [readAt "$a" .unthreaded])
      (afterReads [readAt "$a" .unthreaded, readAt "$b" .unthreaded]) := .next _ .init hplain rfl
  have hsome : (runWhile privateStep (fun _ _ => True) markerRun twoMarkers).isSome = true := by decide
  obtain ⟨s, hs⟩ := Option.isSome_iff_exists.mp hsome
  have hsome' : ((runWhile privateStep (fun _ _ => True) markerRun twoMarkers).bind
    (privateStep ⟨1, none⟩)).isSome =
      true := by decide +kernel
  rw [hs, Option.bind_some] at hsome'
  obtain ⟨s', hs'⟩ := Option.isSome_iff_exists.mp hsome'
  have hwait : ∀ t ∈ twoMarkers.tasks, t.phase = .waiting := by
    intro t ht
    rcases List.mem_pair.mp ht with rfl | rfl <;> rfl
  obtain ⟨hpublic, hprivate⟩ := read_positions_forward mainCounts unthreadedRead
  exact ⟨hpublic hrun "$a" 1 (by decide +kernel) ha, s, s', hs, hs',
    hprivate hwait (Reaches.of_runWhile markerRun .init hs) hs'⟩

end Congruent.ReadReceipts
