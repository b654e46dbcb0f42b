import Mathlib.Algebra.BigOperators.Group.List.Basic
import Mathlib.Algebra.GroupWithZero.Nat
import Mathlib.Data.Finset.Card
import Congruent.DeviceListEdus
import Congruent.ReadReceipts

/-!
# The receipts of an EDU window (`select_edus`, `select_edus_receipts`, `build_receipt_map`)

The scans of the rooms run at once, but a room's map is built between two awaits of one
task, so what is open is the order in which the rooms get to it.
-/

namespace Congruent.ReceiptWindow

open ReadReceipts (UserId RoomId EventId Receipt ReceiptThread Content PduCount events)
open DeviceListEdus (Changes Edu buildDeviceListEdus)

def eduLimit : Nat := 100

def selectReceiptLimit : Nat := 256

def selectEduLimit : Nat := eduLimit - 2

/-- A row of a room's receipts. -/
structure ReceiptItem where
  userId : UserId
  count : Nat
  readReceipt : String

structure ReceiptData where
  data : Receipt
  eventIds : List EventId

/-- `ReceiptMap::read`. -/
abbrev ReceiptMap := AList fun _ : UserId => ReceiptData

inductive OutgoingEdu where
  | deviceList (edu : Edu)
  | presence (json : String)
  | receipts (rooms : List (RoomId × ReceiptMap))

/-- What the selection of the EDUs of one server reads. -/
structure Env where
  latestEducount : Nat
  currentCount : Nat
  since_le : latestEducount ≤ currentCount
  lastDeviceKeyUpdateCount : Nat
  deviceChanges : Changes (latestEducount, currentCount)
  allDeviceIds : UserId → Option (List DeviceListEdus.DeviceId)
  allowOutgoingReadReceipts : Bool
  allowOutgoingPresence : Bool
  /-- The presence EDU for the server, if any. -/
  presence : Option String
  /-- The rooms shared with the server, in the order in which their maps are built. -/
  serverRooms : List RoomId
  /-- The rows of a room, in the order of their counts. -/
  rows : RoomId → List ReceiptItem
  userIsLocal : UserId → Bool
  /-- The content of a text that is a receipt event. -/
  decode : String → Option Content
  parseEventId : EventId → Option EventId
  getPduCount : EventId → Option PduCount

namespace Env

variable (env : Env)

def since : Nat × Nat := (env.latestEducount, env.currentCount)

/-! ## One room -/

def readreceiptsSince (room : RoomId) : List ReceiptItem :=
  (env.rows room).filter fun item => env.since.1 < item.count

/-- The receipts of local users up to the end of the window, with the counts of their
events. -/
def scan : List ReceiptItem → List (ReceiptItem × Option PduCount)
  | [] => []
  | item :: items =>
    if env.since.2 < item.count then []
    else if env.userIsLocal item.userId then
      match (env.decode item.readReceipt).bind fun content => (events content).head? with
      | some (id, _) => (item, (env.parseEventId id).bind env.getPduCount) :: scan items
      | none => scan items
    else scan items

def signed : PduCount → Int
  | .normal n => n
  | .backfilled n => -n

/-- Events without a count first, then by their place in the timeline. -/
def receiptLe (a b : ReceiptItem × Option PduCount) : Bool :=
  match a.2.map signed, b.2.map signed with
  | none, none => a.1.count ≤ b.1.count
  | none, some _ => true
  | some _, none => false
  | some x, some y => x < y || x = y && a.1.count ≤ b.1.count

def collected (room : RoomId) : List ReceiptItem :=
  ((env.scan (env.readreceiptsSince room)).mergeSort receiptLe).map (·.1)

def readReceipt (item : ReceiptItem) : Option (EventId × Receipt) := do
  let content ← env.decode item.readReceipt
  let (id, types) ← (events content).head?
  let users ← types.lookup .read
  let receipt ← users.lookup item.userId
  some (id, receipt)

end Env

/-- The receipts taken up so far, and the number over all rooms. -/
structure Building where
  read : ReceiptMap
  num : Nat

namespace Env

variable (env : Env) (limit : Nat)

/-- The loop over a room's receipts: what it takes up, and the receipts from where the
limit stops it. -/
def buildReceiptMap : List ReceiptItem → Building → Building × List ReceiptItem
  | [], b => (b, [])
  | item :: items, b =>
    if env.since.2 < item.count then buildReceiptMap items b
    else
      match env.readReceipt item with
      | none => buildReceiptMap items b
      | some (id, receipt) =>
        if item.userId ∈ b.read then
          if receipt.thread = .unthreaded then
            buildReceiptMap items { b with read := b.read.insert item.userId ⟨receipt, [id]⟩ }
          else buildReceiptMap items b
        else if limit ≤ b.num then (b, item :: items)
        else buildReceiptMap items ⟨b.read.insert item.userId ⟨receipt, [id]⟩, b.num + 1⟩

/-! ## All rooms -/

/-- What the pass over a room leaves. -/
structure RoomPass where
  room : RoomId
  read : ReceiptMap
  leftOut : List ReceiptItem

def passRooms : List RoomId → Nat → List RoomPass
  | [], _ => []
  | room :: rooms, num =>
    let (b, leftOut) := env.buildReceiptMap selectReceiptLimit (env.collected room) ⟨∅, num⟩
    ⟨room, b.read, leftOut⟩ :: passRooms rooms b.num

def selectEdusReceipts : Option (List (RoomId × ReceiptMap)) × Nat :=
  let receipts := (env.passRooms env.serverRooms 0).filter fun pass => pass.read.entries ≠ []
  if receipts = [] then (none, env.since.2)
  else (some (receipts.map fun pass => (pass.room, pass.read)), env.since.2)

def selectEdusDeviceChanges : List Edu × Nat :=
  if env.lastDeviceKeyUpdateCount ≤ env.since.1 then ([], env.since.2)
  else buildDeviceListEdus env.allDeviceIds selectEduLimit env.deviceChanges

/-- The EDUs for the server, and the position up to which they count as sent. -/
def selectEdus : List OutgoingEdu × Nat :=
  let (deviceChanges, deviceMax) := env.selectEdusDeviceChanges
  let (receipts, receiptMax) :=
    if env.allowOutgoingReadReceipts then env.selectEdusReceipts else (none, env.since.2)
  let (presence, presenceMax) :=
    if env.allowOutgoingPresence then (env.presence, env.since.2) else (none, env.since.2)
  let lastCount := min (min deviceMax receiptMax) presenceMax
  let edus := deviceChanges.map .deviceList ++ (presence.map .presence).toList ++ (receipts.map .receipts).toList
  if edus = [] then (edus, env.since.2) else (edus, lastCount)

end Env

/-! ## Who takes up the limit -/

namespace Env

variable (env : Env)

/-- A receipt of the window that a map can hold. -/
def readable (item : ReceiptItem) : Bool := item.count ≤ env.since.2 && (env.readReceipt item).isSome

/-- The users whose receipts these are. -/
def readers (items : List ReceiptItem) : Finset UserId := ((items.filter env.readable).map (·.userId)).toFinset

variable {env : Env} {limit : Nat}

theorem readers_cons (item : ReceiptItem) (items : List ReceiptItem) :
    env.readers (item :: items) =
      if env.readable item then insert item.userId (env.readers items) else env.readers items := by
  unfold readers
  by_cases h : env.readable item = true
  · rw [List.filter_cons_of_pos h, if_pos h, List.map_cons, List.toFinset_cons]
  · rw [List.filter_cons_of_neg h, if_neg h]

theorem readers_append (items items' : List ReceiptItem) :
    env.readers (items ++ items') = env.readers items ∪ env.readers items' := by
  unfold readers
  rw [List.filter_append, List.map_append, List.toFinset_append]

def taken (read : ReceiptMap) : Finset UserId := read.keys.toFinset

theorem mem_taken {read : ReceiptMap} {user : UserId} : user ∈ taken read ↔ user ∈ read := by
  rw [taken, List.mem_toFinset, AList.mem_keys]

theorem taken_insert (read : ReceiptMap) (user : UserId) (data : ReceiptData) :
    taken (read.insert user data) = insert user (taken read) := by
  ext u
  rw [Finset.mem_insert, mem_taken, mem_taken, AList.mem_insert]

/-- Up to where the loop stops, each user with a readable receipt takes up one of the
limit; it stops at a user who finds the limit reached. -/
theorem buildReceiptMap_spec : ∀ (items : List ReceiptItem) {b : Building}, b.num ≤ limit →
    ∃ done, items = done ++ (env.buildReceiptMap limit items b).2 ∧
      taken (env.buildReceiptMap limit items b).1.read = taken b.read ∪ env.readers done ∧
      (env.buildReceiptMap limit items b).1.num = b.num + (env.readers done \ taken b.read).card ∧
      (env.buildReceiptMap limit items b).1.num ≤ limit ∧
      ∀ x ∈ (env.buildReceiptMap limit items b).2.head?, env.readable x ∧
        x.userId ∉ taken b.read ∪ env.readers done ∧ (env.buildReceiptMap limit items b).1.num = limit
  | [], b, h => ⟨[], rfl, by simp [buildReceiptMap, readers], by simp [buildReceiptMap,
      readers], h, by simp [buildReceiptMap]⟩
  | item :: items, b, h => by
    unfold buildReceiptMap
    by_cases hlate : env.since.2 < item.count
    · have hr : env.readable item = false := by simp [readable, hlate]
      obtain ⟨done, heq, htaken, hnum, hle, hstop⟩ := buildReceiptMap_spec items h
      have hdone : env.readers (item :: done) = env.readers done := by simp [readers_cons, hr]
      rw [if_pos hlate]
      exact ⟨item :: done, by rw [List.cons_append, ← heq], by rw [hdone, htaken], by rw [hdone, hnum], hle,
        by rwa [hdone]⟩
    rw [if_neg hlate]
    cases hread : env.readReceipt item with
    | none =>
      have hr : env.readable item = false := by simp [readable, hread]
      obtain ⟨done, heq, htaken, hnum, hle, hstop⟩ := buildReceiptMap_spec items h
      have hdone : env.readers (item :: done) = env.readers done := by simp [readers_cons, hr]
      exact ⟨item :: done, by rw [List.cons_append, ← heq], by rw [hdone, htaken], by rw [hdone, hnum], hle,
        by rwa [hdone]⟩
    | some found =>
      obtain ⟨id, receipt⟩ := found
      have hr : env.readable item = true := by simp [readable, hread, Nat.not_lt.mp hlate]
      have hcons : ∀ done, env.readers (item :: done) = insert item.userId (env.readers done) := fun done => by
        rw [readers_cons, if_pos hr]
      simp only
      by_cases hin : item.userId ∈ b.read
      · -- the user has one already, and another changes neither the users nor the number
        have hmem : item.userId ∈ taken b.read := mem_taken.mpr hin
        have hkeep : ∀ b' : Building, taken b'.read = taken b.read → b'.num = b.num →
            ∃ done, item :: items = done ++ (env.buildReceiptMap limit items b').2 ∧
              taken (env.buildReceiptMap limit items b').1.read = taken b.read ∪ env.readers done ∧
              (env.buildReceiptMap limit items b').1.num = b.num + (env.readers done \ taken b.read).card ∧
              (env.buildReceiptMap limit items b').1.num ≤ limit ∧
              ∀ x ∈ (env.buildReceiptMap limit items b').2.head?, env.readable x ∧
                x.userId ∉ taken b.read ∪ env.readers done ∧
                  (env.buildReceiptMap limit items b').1.num = limit := by
          intro b' ht hn
          obtain ⟨done, heq, htaken, hnum, hle, hstop⟩ := buildReceiptMap_spec items (b := b') (hn ▸ h)
          rw [ht] at htaken hnum hstop
          refine ⟨item :: done, by rw [List.cons_append, ← heq], ?_, ?_, hle, ?_⟩
          · rw [htaken, hcons, Finset.union_insert, Finset.insert_eq_of_mem (Finset.mem_union_left _ hmem)]
          · rw [hnum, hn, hcons, Finset.insert_sdiff_of_mem _ hmem]
          · rwa [hcons, Finset.union_insert, Finset.insert_eq_of_mem (Finset.mem_union_left _ hmem)]
        rw [if_pos hin]
        split
        · refine hkeep _ ?_ rfl
          rw [taken_insert, Finset.insert_eq_of_mem hmem]
        · exact hkeep b rfl rfl
      · have hnew : item.userId ∉ taken b.read := fun hm => hin (mem_taken.mp hm)
        rw [if_neg hin]
        by_cases hfull : limit ≤ b.num
        · rw [if_pos hfull]
          refine ⟨[], rfl, by simp [readers], by simp [readers], h, fun x hx => ?_⟩
          cases hx
          exact ⟨hr, by simpa [readers] using hnew, Nat.le_antisymm h hfull⟩
        · rw [if_neg hfull]
          obtain ⟨done, heq, htaken, hnum, hle, hstop⟩ := buildReceiptMap_spec items
            (b := ⟨b.read.insert item.userId ⟨receipt, [id]⟩, b.num + 1⟩) (Nat.not_le.mp hfull)
          have hunion : insert item.userId (taken b.read) ∪ env.readers done =
              taken b.read ∪ env.readers (item :: done) := by
            rw [hcons, Finset.union_insert, Finset.insert_union]
          rw [taken_insert] at htaken hnum hstop
          rw [hunion] at htaken hstop
          refine ⟨item :: done, by rw [List.cons_append, ← heq], htaken, ?_, hle, hstop⟩
          have hcard : (env.readers (item :: done) \ taken b.read).card =
              (env.readers done \ insert item.userId (taken b.read)).card + 1 := by
            rw [hcons, Finset.insert_sdiff_of_notMem _ hnew, Finset.sdiff_insert]
            by_cases hd : item.userId ∈ env.readers done
            · have hds : item.userId ∈ env.readers done \ taken b.read := Finset.mem_sdiff.mpr ⟨hd, hnew⟩
              rw [Finset.insert_eq_of_mem hds, Finset.card_erase_add_one hds]
            · have hds : item.userId ∉ env.readers done \ taken b.read := fun hm => hd (Finset.mem_sdiff.mp hm).1
              rw [Finset.card_insert_of_notMem hds, Finset.erase_eq_of_notMem hds]
          rw [hnum, hcard]
          simp only
          omega

theorem readers_subset_append (items items' : List ReceiptItem) :
    env.readers items ⊆ env.readers (items ++ items') := by
  rw [readers_append]
  exact Finset.subset_union_left

/-- A receipt is left out just when the users up to it pass the limit. -/
theorem mem_leftOut_iff {items : List ReceiptItem} {num : Nat} (h : num ≤ limit) {item : ReceiptItem} :
    item ∈ (env.buildReceiptMap limit items ⟨∅, num⟩).2 ↔
      ∃ before after, items = before ++ item :: after ∧ limit < num + (env.readers (before ++ [item])).card := by
  obtain ⟨done, heq, -, hnum, hle, hstop⟩ := @buildReceiptMap_spec env limit items ⟨∅, num⟩ h
  have hempty : taken (∅ : ReceiptMap) = ∅ := rfl
  simp only [hempty, Finset.sdiff_empty, Finset.empty_union] at hnum hstop
  generalize env.buildReceiptMap limit items ⟨∅, num⟩ = r at *
  constructor
  · intro hmem
    obtain ⟨skipped, after, hsplit⟩ := List.append_of_mem hmem
    refine ⟨done ++ skipped, after, by rw [heq, hsplit, List.append_assoc], ?_⟩
    obtain ⟨first, hfirst⟩ : ∃ first, first ∈ r.2.head? := by
      cases hr : r.2 with
      | nil => rw [hr] at hmem; cases hmem
      | cons a l => exact ⟨a, rfl⟩
    obtain ⟨hfr, hfnew, hfull⟩ := hstop first hfirst
    -- the user who stopped the loop comes before the receipt or is its user
    have hfin : first ∈ skipped ++ [item] := by
      rw [hsplit] at hfirst
      cases skipped with
      | nil => cases hfirst; exact List.mem_singleton_self _
      | cons a l => cases hfirst; exact List.mem_cons_self
    have hsub : insert first.userId (env.readers done) ⊆ env.readers (done ++ skipped ++ [item]) := by
      rw [List.append_assoc, readers_append]
      refine Finset.insert_subset (Finset.mem_union_right _ ?_) Finset.subset_union_left
      exact List.mem_toFinset.mpr (List.mem_map_of_mem (List.mem_filter.mpr ⟨hfin, hfr⟩))
    have hcard := Finset.card_le_card hsub
    rw [Finset.card_insert_of_notMem hfnew] at hcard
    omega
  · rintro ⟨before, after, hsplit, hlt⟩
    by_contra hout
    -- otherwise it is among those taken up, and so are the users up to it
    have hbefore : ∃ rest, done = before ++ [item] ++ rest := by
      rcases List.append_eq_append_iff.mp (heq.symm.trans hsplit) with ⟨skipped, -, hr⟩ | ⟨rest, hd, hr⟩
      · exact absurd (hr ▸ List.mem_append_right _ List.mem_cons_self) hout
      · cases rest with
        | nil =>
          rw [List.nil_append] at hr
          exact absurd (hr ▸ List.mem_cons_self) hout
        | cons a rest =>
          cases hr
          exact ⟨rest, by rw [hd, List.append_assoc]; rfl⟩
    obtain ⟨rest, rfl⟩ := hbefore
    have hcard : (env.readers (before ++ [item])).card ≤ (env.readers (before ++ [item] ++ rest)).card :=
      Finset.card_le_card (readers_subset_append _ _)
    omega

theorem buildReceiptMap_num {items : List ReceiptItem} {num : Nat} (h : num ≤ limit) :
    (env.buildReceiptMap limit items ⟨∅, num⟩).1.num = min limit (num + (env.readers items).card) := by
  obtain ⟨done, heq, -, hnum, hle, hstop⟩ := @buildReceiptMap_spec env limit items ⟨∅, num⟩ h
  have hempty : taken (∅ : ReceiptMap) = ∅ := rfl
  simp only [hempty, Finset.sdiff_empty, Finset.empty_union] at hnum hstop
  generalize env.buildReceiptMap limit items ⟨∅, num⟩ = r at *
  have hcard : (env.readers done).card ≤ (env.readers (done ++ r.2)).card :=
    Finset.card_le_card (readers_subset_append _ _)
  rw [← heq] at hcard
  cases hrest : r.2 with
  | nil =>
    rw [hrest, List.append_nil] at heq
    rw [heq]
    omega
  | cons first rest =>
    obtain ⟨-, -, hfull⟩ := hstop first (hrest ▸ rfl)
    omega

variable (env) in
/-- How many users of some rooms have receipts to take up. -/
def demand (rooms : List RoomId) : Nat := (rooms.map fun room => (env.readers (env.collected room)).card).sum

theorem mem_passRooms_iff : ∀ (rooms : List RoomId) {num : Nat}, num ≤ selectReceiptLimit → ∀ item,
    env.readable item →
    ((∃ pass ∈ env.passRooms rooms num, item ∈ pass.leftOut) ↔
      ∃ earlier room later, rooms = earlier ++ room :: later ∧ ∃ before after,
        env.collected room = before ++ item :: after ∧
        selectReceiptLimit < num + env.demand earlier + (env.readers (before ++ [item])).card)
  | [], num, _, item, _ => by simp [passRooms]
  | room :: rooms, num, h, item, hread => by
    have hnum := @buildReceiptMap_num env selectReceiptLimit (env.collected room) num h
    have hpos : ∀ before, 0 < (env.readers (before ++ [item])).card := fun before =>
      Finset.card_pos.mpr ⟨item.userId, List.mem_toFinset.mpr (List.mem_map_of_mem
        (List.mem_filter.mpr ⟨List.mem_append_right _ (List.mem_singleton_self item), hread⟩))⟩
    have ih := @mem_passRooms_iff rooms (env.buildReceiptMap selectReceiptLimit (env.collected room) ⟨∅, num⟩).1.num
      (by omega) item hread
    unfold passRooms
    simp only [List.mem_cons, exists_eq_or_imp, ih, mem_leftOut_iff h]
    constructor
    · rintro (⟨before, after, heq, hlt⟩ | ⟨earlier, r, later, rfl, before, after, heq, hlt⟩)
      · exact ⟨[], room, rooms, rfl, before, after, heq, by simpa [demand] using hlt⟩
      · refine ⟨room :: earlier, r, later, rfl, before, after, heq, ?_⟩
        have hcons : env.demand (room :: earlier) = (env.readers (env.collected room)).card +
            env.demand earlier := rfl
        omega
    · rintro ⟨earlier, r, later, hsplit, before, after, heq, hlt⟩
      cases earlier with
      | nil =>
        cases hsplit
        exact .inl ⟨before, after, heq, by simpa [demand] using hlt⟩
      | cons first earlier =>
        cases hsplit
        refine .inr ⟨earlier, r, later, rfl, before, after, heq, ?_⟩
        have hcons : env.demand (room :: earlier) = (env.readers (env.collected room)).card +
            env.demand earlier := rfl
        have := hpos before
        omega

theorem exists_read_of_leftOut : ∀ (rooms : List RoomId) {num : Nat}, num < selectReceiptLimit →
    ∀ pass ∈ env.passRooms rooms num, pass.leftOut ≠ [] → ∃ pass ∈ env.passRooms rooms num, pass.read.entries ≠ []
  | [], _, _, pass, hpass, _ => absurd hpass List.not_mem_nil
  | room :: rooms, num, h, pass, hpass, hleft => by
    obtain ⟨done, heq, htaken, hnum, hle, hstop⟩ :=
      @buildReceiptMap_spec env selectReceiptLimit (env.collected room) ⟨∅, num⟩ h.le
    have hempty : taken (∅ : ReceiptMap) = ∅ := rfl
    simp only [hempty, Finset.sdiff_empty, Finset.empty_union] at hnum htaken hstop
    unfold passRooms at hpass ⊢
    simp only [List.mem_cons, exists_eq_or_imp] at hpass ⊢
    by_cases hread : (env.buildReceiptMap selectReceiptLimit (env.collected room) ⟨∅, num⟩).1.read.entries = []
    · have hnone : env.readers done = ∅ := by
        rw [← htaken, taken, AList.keys, hread]
        rfl
      rw [hnone, Finset.card_empty, Nat.add_zero] at hnum
      rcases hpass with rfl | hpass
      · -- the loop stopped with nothing taken up, which the limit does not allow
        obtain ⟨first, rest, hrest⟩ := List.exists_cons_of_ne_nil hleft
        obtain ⟨-, -, hfull⟩ := hstop first (by simp only at hrest; rw [hrest]; rfl)
        omega
      · exact .inr (exists_read_of_leftOut rooms (by rw [hnum]; exact h) pass hpass hleft)
    · exact .inl hread

/-! ## The position -/

variable (env) in
def LeftOut (item : ReceiptItem) : Prop :=
  env.allowOutgoingReadReceipts = true ∧ env.readable item ∧
    ∃ pass ∈ env.passRooms env.serverRooms 0, item ∈ pass.leftOut

theorem deviceMax_le : env.selectEdusDeviceChanges.2 ≤ env.since.2 := by
  unfold selectEdusDeviceChanges
  split
  · exact Nat.le_refl _
  · obtain ⟨-, hcur, -⟩ := @DeviceListEdus.buildDeviceListEdus_spec env.allDeviceIds
      selectEduLimit _ env.deviceChanges
    rcases hcur with hcur | hcur | ⟨g, hg, hcur⟩
    · exact hcur.le.trans env.since_le
    · exact hcur.le
    · exact hcur.le.trans (env.deviceChanges.window g hg).2

theorem selectEdus_position {item : ReceiptItem} (h : env.LeftOut item) :
    env.selectEdus.2 = env.selectEdusDeviceChanges.2 := by
  obtain ⟨hallow, -, pass, hpass, hmem⟩ := h
  obtain ⟨pass', hpass', hne⟩ := exists_read_of_leftOut env.serverRooms (by decide) pass hpass
    (List.ne_nil_of_mem hmem)
  have hfilter : (env.passRooms env.serverRooms 0).filter (fun pass => pass.read.entries ≠ []) ≠ [] :=
    List.ne_nil_of_mem (List.mem_filter.mpr ⟨hpass', decide_eq_true hne⟩)
  have hreceipts : env.selectEdusReceipts = (some (((env.passRooms env.serverRooms 0).filter
      fun pass => pass.read.entries ≠ []).map fun pass => (pass.room, pass.read)), env.since.2) := if_neg hfilter
  have hle := @deviceMax_le env
  unfold selectEdus
  rw [if_pos hallow, hreceipts]
  cases env.allowOutgoingPresence <;> simp [hle]

theorem mem_scan {item : ReceiptItem} {rank : Option PduCount} : ∀ {items : List ReceiptItem},
    (item, rank) ∈ env.scan items → item ∈ items
  | first :: items, h => by
    unfold scan at h
    split at h
    · cases h
    split at h
    · split at h
      · rcases List.mem_cons.mp h with heq | h
        · cases heq
          exact List.mem_cons_self
        · exact List.mem_cons_of_mem _ (mem_scan h)
      · exact List.mem_cons_of_mem _ (mem_scan h)
    · exact List.mem_cons_of_mem _ (mem_scan h)

theorem lt_of_mem_collected {item : ReceiptItem} {room : RoomId} (h : item ∈ env.collected room) :
    env.since.1 < item.count := by
  obtain ⟨⟨_, rank⟩, hmem, rfl⟩ := List.mem_map.mp h
  exact of_decide_eq_true (List.mem_filter.mp (mem_scan (List.mem_mergeSort.mp hmem))).2

variable (env) in
/-- The device lists of the window need more EDUs than there are before they get past a
count: those of all its changes, and those of the changes up to each one from the count
on. -/
def HeldBelow (count : Nat) : Prop :=
  env.since.1 < env.lastDeviceKeyUpdateCount ∧
    selectEduLimit < env.deviceChanges.demandUpTo env.allDeviceIds env.since.2 ∧
    ∀ g ∈ env.deviceChanges.groups, count ≤ g.1 →
      selectEduLimit < env.deviceChanges.demandUpTo env.allDeviceIds g.1

theorem deviceMax_lt_iff {count : Nat} (hlow : env.since.1 < count) (hhigh : count ≤ env.since.2) :
    env.selectEdusDeviceChanges.2 < count ↔ env.HeldBelow count := by
  unfold selectEdusDeviceChanges HeldBelow
  split
  · rename_i hold
    exact iff_of_false (Nat.not_lt.mpr hhigh) fun h => absurd h.1 (Nat.not_lt.mpr hold)
  · rename_i hnew
    rw [DeviceListEdus.cursor_lt_iff env.deviceChanges hlow hhigh, and_iff_right (Nat.not_le.mp hnew)]
    rfl

end Env

/-- The position stays below every receipt that the limit leaves out just when the device
lists hold it there: of the receipts up to which the users of the rooms so far pass the
limit, each has a count that the EDUs for them do not get past. -/
theorem position_below_leftOut_iff (env : Env) :
    (∀ item, env.LeftOut item → env.selectEdus.2 < item.count) ↔
      (env.allowOutgoingReadReceipts = true → ∀ earlier room later, env.serverRooms = earlier ++ room :: later →
        ∀ before item after, env.collected room = before ++ item :: after → env.readable item →
          selectReceiptLimit < env.demand earlier + (env.readers (before ++ [item])).card →
          env.HeldBelow item.count) := by
  have hiff := @Env.mem_passRooms_iff env env.serverRooms 0 (Nat.zero_le _)
  simp only [Nat.zero_add] at hiff
  have hheld : ∀ {room before item after}, env.collected room = before ++ item :: after → env.readable item →
      (env.selectEdusDeviceChanges.2 < item.count ↔ env.HeldBelow item.count) := fun hitems hread =>
    Env.deviceMax_lt_iff (Env.lt_of_mem_collected (hitems ▸ List.mem_append_right _ List.mem_cons_self))
      (of_decide_eq_true (Bool.and_eq_true_iff.mp hread).1)
  constructor
  · intro h hallow earlier room later hrooms before item after hitems hread hlt
    have hleft : env.LeftOut item :=
      ⟨hallow, hread, (hiff item hread).mpr ⟨earlier, room, later, hrooms, before, after, hitems, hlt⟩⟩
    rw [← hheld hitems hread, ← Env.selectEdus_position hleft]
    exact h item hleft
  · intro h item hleft
    obtain ⟨hallow, hread, hpass⟩ := hleft
    obtain ⟨earlier, room, later, hrooms, before, after, hitems, hlt⟩ := (hiff item hread).mp hpass
    rw [Env.selectEdus_position ⟨hallow, hread, hpass⟩, hheld hitems hread]
    exact h hallow earlier room later hrooms before item after hitems hread hlt

/-! ## More users than the limit -/

def crowdUser (i : Nat) : UserId := String.ofList (List.replicate i 'u')

theorem crowdUser_injective : Function.Injective crowdUser := by
  intro i j h
  have hl := congrArg (fun s : String => s.toList.length) h
  simpa [crowdUser] using hl

def crowdTypes (user : UserId) : ReadReceipts.Types :=
  AList.singleton .read (AList.singleton user ⟨.main, none⟩)

def crowdContent (user : UserId) : Content := AList.singleton "$a" (crowdTypes user)

theorem events_crowdContent (user : UserId) : events (crowdContent user) = [("$a", crowdTypes user)] :=
  ReadReceipts.inOrder_singleton _ _ _

theorem lookup_singleton {K V : Type} [DecidableEq K] (k : K) (v : V) :
    (AList.singleton k v : AList fun _ : K => V).lookup k = some v := by
  rw [← AList.insert_empty, AList.lookup_insert]

/-- Each of 257 users has one receipt in the one room. -/
def crowd : Env where
  latestEducount := 0
  currentCount := 300
  since_le := by decide
  lastDeviceKeyUpdateCount := 0
  deviceChanges := .empty _
  allDeviceIds _ := none
  allowOutgoingReadReceipts := true
  allowOutgoingPresence := false
  presence := none
  serverRooms := ["!r:a"]
  rows _ := (List.range 257).map fun i => ⟨crowdUser i, i + 1, crowdUser i⟩
  userIsLocal _ := true
  decode user := some (crowdContent user)
  parseEventId id := some id
  getPduCount _ := none

theorem crowd_scan : ∀ items : List ReceiptItem, (∀ item ∈ items, item.count ≤ 300) →
    crowd.scan items = items.map fun item => (item, none)
  | [], _ => rfl
  | item :: items, h => by
    have hle : ¬ crowd.since.2 < item.count := Nat.not_lt.mpr (h item List.mem_cons_self)
    have hfirst : ((crowd.decode item.readReceipt).bind fun content => (events content).head?) =
        some ("$a", crowdTypes item.readReceipt) := by
      show (events (crowdContent item.readReceipt)).head? = _
      rw [events_crowdContent]
      rfl
    unfold Env.scan
    rw [if_neg hle, hfirst, crowd_scan items fun i hi => h i (List.mem_cons_of_mem _ hi)]
    rfl

theorem crowd_mem {item : ReceiptItem} : item ∈ crowd.collected "!r:a" ↔
    ∃ i, i < 257 ∧ item = ⟨crowdUser i, i + 1, crowdUser i⟩ := by
  have hall : crowd.readreceiptsSince "!r:a" = (List.range 257).map fun i => ⟨crowdUser i, i + 1, crowdUser i⟩ := by
    refine List.filter_eq_self.mpr fun item hi => ?_
    obtain ⟨i, -, rfl⟩ := List.mem_map.mp hi
    exact decide_eq_true (Nat.succ_pos i)
  have hscan := crowd_scan (crowd.readreceiptsSince "!r:a") fun item hi => by
    rw [hall] at hi
    obtain ⟨i, hr, rfl⟩ := List.mem_map.mp hi
    have hlt := List.mem_range.mp hr
    show i + 1 ≤ 300
    omega
  unfold Env.collected
  rw [hscan, hall]
  simp [eq_comm]

theorem crowd_readable {item : ReceiptItem} (h : item ∈ crowd.collected "!r:a") : crowd.readable item = true := by
  obtain ⟨i, hi, rfl⟩ := crowd_mem.mp h
  have hread : crowd.readReceipt ⟨crowdUser i, i + 1, crowdUser i⟩ = some ("$a", ⟨.main, none⟩) := by
    have htypes : (crowdTypes (crowdUser i)).lookup .read = some (AList.singleton (crowdUser i) ⟨.main, none⟩) :=
      lookup_singleton _ _
    simp only [Env.readReceipt, crowd, events_crowdContent, List.head?_cons, Option.bind_eq_bind, Option.bind_some,
      htypes, lookup_singleton]
  rw [Env.readable, hread, Option.isSome_some, Bool.and_true]
  exact decide_eq_true (show i + 1 ≤ 300 by omega)

/-- The last of the users is left out, and the position is past its receipt. -/
theorem crowd_receipt_lost : ¬ ∀ item, crowd.LeftOut item → crowd.selectEdus.2 < item.count := by
  intro h
  have husers : (Finset.range 257).image crowdUser ⊆ crowd.readers (crowd.collected "!r:a") := by
    intro user hu
    obtain ⟨i, hi, rfl⟩ := Finset.mem_image.mp hu
    have hmem := crowd_mem.mpr ⟨i, Finset.mem_range.mp hi, rfl⟩
    exact List.mem_toFinset.mpr (List.mem_map_of_mem (List.mem_filter.mpr ⟨hmem, crowd_readable hmem⟩))
  have hcard := Finset.card_le_card husers
  rw [Finset.card_image_of_injective _ crowdUser_injective, Finset.card_range] at hcard
  obtain ⟨before, last, hsplit⟩ : ∃ before last, crowd.collected "!r:a" = before ++ [last] := by
    refine ⟨_, _, (List.dropLast_append_getLast (List.ne_nil_of_mem (crowd_mem.mpr ⟨0, by decide, rfl⟩))).symm⟩
  have hlast : last ∈ crowd.collected "!r:a" := hsplit ▸ List.mem_append_right _ (List.mem_singleton_self last)
  have hread := crowd_readable hlast
  rw [hsplit] at hcard
  have hleft : crowd.LeftOut last := by
    refine ⟨rfl, hread, (Env.mem_passRooms_iff ["!r:a"] (Nat.zero_le _) last hread).mpr ?_⟩
    exact ⟨[], "!r:a", [], rfl, before, [], hsplit, (show 256 < 0 + 0 + _ by omega)⟩
  have hpos := h last hleft
  rw [Env.selectEdus_position hleft] at hpos
  simp only [Env.readable, Bool.and_eq_true, decide_eq_true_eq] at hread
  exact absurd hpos (Nat.not_lt.mpr hread.1)

end Congruent.ReceiptWindow
