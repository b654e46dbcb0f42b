import Congruent.DeviceKeyWindows

/-!
# Cursors of device-key updates

A window is settled when its end is read, so a transaction or a response tells of all its
updates, whenever its scans run. A server's cursor and a client's token move to the end of
a window that was told.
-/

namespace Congruent.DeviceKeyUpdates

open DeviceListEdus
open ReceiptWindow (OutgoingEdu Env)

/-! ## Selections -/

section
variable (userIsLocal : UserId → Bool)

/-- The selection that a step leaves in place of one, or begins. -/
def Arises (s : Keys) : Action → Selection → Prop
  | .select dest, x => x = .since dest (s.latestEducount dest)
  | .bound j, x => ∃ dest lower, s.selections[j]? = some (.since dest lower) ∧ s.writers = [] ∧
      x = .window dest lower s.counter
  | .lookup j rooms, x => ∃ dest lower upper, s.selections[j]? = some (.window dest lower upper) ∧
      x = .scanning dest lower upper s.lastDeviceKeyUpdateCount
        (if s.lastDeviceKeyUpdateCount ≤ lower then [] else rooms) []
  | .scanRoom j partialSince, x => ∃ dest lower upper last room rooms rows,
      s.selections[j]? = some (.scanning dest lower upper last (room :: rooms) rows) ∧
      x = .scanning dest lower upper last rooms (rows ++ roomRows userIsLocal s.keychangeidUserid room
        (if lower = 0 then partialSince.getD 0 else lower) lower upper)
  | .build j others, x => ∃ dest lower upper last rows, ∃ h : lower ≤ upper,
      s.selections[j]? = some (.scanning dest lower upper last [] rows) ∧
      x = .sending ⟨dest, lower, others.devices, (windowEnv h last rows others).selectEdus.1,
        (windowEnv h last rows others).selectEdus.2⟩
  | _, _ => False

variable {userIsLocal} {a : Action} {s s' : Keys} {x : Selection}

theorem selections_step (h : step userIsLocal a s = some s') (hx : x ∈ s'.selections) :
    x ∈ s.selections ∨ Arises userIsLocal s a x := by
  have hset : ∀ {j : Nat} {x₀ y : Selection}, s.selections[j]? = some x₀ → x ∈ s.selections.set j y →
      x ∈ s.selections ∨ x = y := by
    intro j x₀ y hj hmem
    rcases mem_set_of_some hj hmem with heq | ⟨k, -, hk⟩
    · exact .inr heq
    · exact .inl (List.mem_of_getElem? hk)
  cases a with
  | select dest =>
    cases h
    rcases List.mem_append.mp hx with hx | hx
    · exact .inl hx
    · exact .inr (List.mem_singleton.mp hx)
  | bound j =>
    simp only [step] at h
    split at h
    · rename_i dest lower hj
      split at h
      · rename_i hw
        cases h
        exact (hset hj hx).imp id fun heq => ⟨dest, lower, hj, hw, heq⟩
      · cases h
    · cases h
  | lookup j rooms =>
    simp only [step] at h
    split at h
    · rename_i dest lower upper hj
      cases h
      exact (hset hj hx).imp id fun heq => ⟨dest, lower, upper, hj, heq⟩
    · cases h
  | scanRoom j partialSince =>
    simp only [step] at h
    split at h
    · rename_i dest lower upper last room rooms rows hj
      cases h
      exact (hset hj hx).imp id fun heq => ⟨dest, lower, upper, last, room, rooms, rows, hj, heq⟩
    · cases h
  | build j others =>
    simp only [step] at h
    split at h
    · rename_i dest lower upper last rows hj
      split at h
      · rename_i hle
        cases h
        exact (hset hj hx).imp id fun heq => ⟨dest, lower, upper, last, rows, hle, hj, heq⟩
      · cases h
    · cases h
  | deliver j =>
    simp only [step] at h
    split at h
    · cases h
      exact .inl (List.mem_of_mem_eraseIdx hx)
    · cases h
  | dropSelection j =>
    obtain ⟨y, -, rfl⟩ := Option.map_eq_some_iff.mp h
    exact .inl (List.mem_of_mem_eraseIdx hx)
  | restart =>
    cases h
    exact absurd hx List.not_mem_nil
  | mark user => cases h; exact .inl hx
  | connect user => cases h; exact .inl hx
  | leave i =>
    obtain ⟨w, -, rfl⟩ := Option.map_eq_some_iff.mp h
    exact .inl hx
  | other diff =>
    obtain ⟨c, -, rfl⟩ := Option.map_eq_some_iff.mp h
    exact .inl hx
  | draw i =>
    simp only [step] at h
    split at h
    · obtain ⟨c, -, rfl⟩ := Option.map_eq_some_iff.mp h
      exact .inl hx
    · cases h
  | put i owner =>
    obtain ⟨w, user, count, -, -, rfl⟩ := put_eq_some h
    exact .inl hx
  | announce i | syncBound k | syncScan k =>
    simp only [step] at h
    repeat' split at h
    all_goals first | cases h; exact .inl hx | cases h

theorem delivered_step (h : step userIsLocal a s = some s') :
    s'.servernameEducount = s.servernameEducount ∧ s'.delivered = s.delivered ∨
      ∃ tx, .sending tx ∈ s.selections ∧ s'.delivered = s.delivered ++ [tx] ∧
        s'.servernameEducount = s.servernameEducount.insert tx.dest tx.eduCount := by
  cases a with
  | deliver j =>
    simp only [step] at h
    split at h
    · rename_i tx hj
      cases h
      exact .inr ⟨tx, List.mem_of_getElem? hj, rfl, rfl⟩
    · cases h
  | put i owner =>
    obtain ⟨w, user, count, -, -, rfl⟩ := put_eq_some h
    exact .inl ⟨rfl, rfl⟩
  | mark user | select dest | connect user | restart =>
    cases h
    exact .inl ⟨rfl, rfl⟩
  | leave i | other diff | dropSelection j =>
    obtain ⟨w, -, rfl⟩ := Option.map_eq_some_iff.mp h
    exact .inl ⟨rfl, rfl⟩
  | draw i =>
    simp only [step] at h
    split at h
    · obtain ⟨c, -, rfl⟩ := Option.map_eq_some_iff.mp h
      exact .inl ⟨rfl, rfl⟩
    · cases h
  | announce i | bound j | lookup j rooms | scanRoom j partialSince | build j others | syncBound k | syncScan k =>
    simp only [step] at h
    repeat' split at h
    all_goals first | cases h; exact .inl ⟨rfl, rfl⟩ | cases h

end

/-! ## Cursors of servers -/

section
variable (userIsLocal : UserId → Bool) (dest : ServerName) (room : Owner) (floor : Nat)

def Due (s : Keys) (user : UserId) (count : Nat) : Prop :=
  (toLex (room, count), user) ∈ s.keychangeidUserid ∧ userIsLocal user = true ∧ floor < count

/-- An acknowledged transaction told the server of the change. -/
def Told (s : Keys) (user : UserId) (count : Nat) : Prop :=
  ∃ tx ∈ s.delivered, tx.dest = dest ∧ tx.since < count ∧ count ≤ tx.eduCount ∧ Announces tx.devices tx.edus user

/-- Nothing can be put at or below the position any more, and the server knows what is there. -/
structure Covered (s : Keys) (position : Nat) : Prop where
  settled : s.board.Settled position
  told : ∀ user count, Due userIsLocal room floor s user count → count ≤ position → Told dest s user count

def Sound (s : Keys) : Selection → Prop
  | .since d lower => d = dest → Covered userIsLocal dest room floor s lower
  | .window d lower upper => d = dest →
      Covered userIsLocal dest room floor s lower ∧ lower ≤ upper ∧ s.board.Settled upper
  | .scanning d lower upper last rooms rows => d = dest →
      Covered userIsLocal dest room floor s lower ∧ lower ≤ upper ∧ s.board.Settled upper ∧
        ∀ user count, Due userIsLocal room floor s user count → lower < count → count ≤ upper →
          lower < last ∧ (room ∈ rooms ∨ ∃ r ∈ rows, r.1 = (user, count))
  | .sending tx => tx.dest = dest →
      Covered userIsLocal dest room floor s tx.since ∧ s.board.Settled tx.eduCount ∧
        ∀ user count, Due userIsLocal room floor s user count → tx.since < count → count ≤ tx.eduCount →
          Announces tx.devices tx.edus user

/-- Calls complete, and the selections for the server look into the room, at first from
`floor` on at the latest. -/
def regular : Action → Keys → Bool
  | .lookup j rooms, s => s.selections[j]?.all fun x => x.dest ≠ dest || room ∈ rooms
  | .scanRoom j partialSince, s => s.selections[j]?.all fun x => !x.scans dest room || partialSince.getD 0 ≤ floor
  | a, s => completes a s

structure Inv (s : Keys) : Prop where
  posted : Posted s
  cursor : Covered userIsLocal dest room floor s (s.latestEducount dest)
  sound : ∀ x ∈ s.selections, Sound userIsLocal dest room floor s x

end

section
variable {userIsLocal : UserId → Bool} {dest : ServerName} {room : Owner} {floor : Nat} {a : Action} {s s' : Keys}

theorem completes_of_regular (h : regular dest room floor a s = true) : completes a s = true := by
  cases a <;> first | exact h | rfl

theorem due_of_step (hs : step userIsLocal a s = some s') {upper : Nat}
    (hset : s.board.Settled upper) {user : UserId}
    {count : Nat} (hle : count ≤ upper) (h : Due userIsLocal room floor s' user count) :
    Due userIsLocal room floor s user count := by
  have hshown := hset.shown_step (board_step hs) hle
  have hmem : (room, user) ∈ s'.board.shown count := h.1
  rw [hshown] at hmem
  exact ⟨hmem, h.2⟩

theorem Told.step (hs : step userIsLocal a s = some s') {user : UserId} {count : Nat} (h : Told dest s user count) :
    Told dest s' user count := by
  obtain ⟨tx, htx, htold⟩ := h
  rcases delivered_step hs with ⟨-, heq⟩ | ⟨tx', -, heq, -⟩
  · exact ⟨tx, heq ▸ htx, htold⟩
  · exact ⟨tx, heq ▸ List.mem_append_left _ htx, htold⟩

theorem Covered.step (hs : step userIsLocal a s = some s') {position : Nat}
    (h : Covered userIsLocal dest room floor s position) : Covered userIsLocal dest room floor s' position :=
  ⟨h.settled.step (board_step hs), fun user count hdue hle =>
    (h.told user count (due_of_step hs h.settled hle hdue) hle).step hs⟩

theorem Sound.step (hs : step userIsLocal a s = some s') {x : Selection}
    (h : Sound userIsLocal dest room floor s x) :
    Sound userIsLocal dest room floor s' x := by
  cases x with
  | since d lower => exact fun hd => (h hd).step hs
  | window d lower upper =>
    intro hd
    obtain ⟨hcov, hle, hset⟩ := h hd
    exact ⟨hcov.step hs, hle, hset.step (board_step hs)⟩
  | scanning d lower upper last rooms rows =>
    intro hd
    obtain ⟨hcov, hle, hset, hrows⟩ := h hd
    exact ⟨hcov.step hs, hle, hset.step (board_step hs), fun user count hdue hlow hup =>
      hrows user count (due_of_step hs hset hup hdue) hlow hup⟩
  | sending tx =>
    intro hd
    obtain ⟨hcov, hset, hann⟩ := h hd
    exact ⟨hcov.step hs, hset.step (board_step hs), fun user count hdue hlow hup =>
      hann user count (due_of_step hs hset hup hdue) hlow hup⟩

/-- A selection that a step begins or takes further is as it should be. -/
theorem Inv.arises (h : Inv userIsLocal dest room floor s) (hok : regular dest room floor a s = true)
    (hs : step userIsLocal a s = some s') {x : Selection} (hx : Arises userIsLocal s a x) :
    Sound userIsLocal dest room floor s x := by
  cases a with
  | select d =>
    cases hx
    rintro rfl
    exact h.cursor
  | bound j =>
    obtain ⟨d, lower, hj, hw, rfl⟩ := hx
    intro hd
    have hcov := h.sound _ (List.mem_of_getElem? hj) hd
    refine ⟨hcov, hcov.settled.le, Board.settled_counter ?_⟩
    simp [Keys.board, hw]
  | lookup j rooms =>
    obtain ⟨d, lower, upper, hj, rfl⟩ := hx
    rintro rfl
    obtain ⟨hcov, hle, hset⟩ := h.sound _ (List.mem_of_getElem? hj) rfl
    refine ⟨hcov, hle, hset, fun user count hdue hlow hup => ?_⟩
    have hwithin := h.posted.within hset hdue.1 hup
    have hlast := hlow.trans_le hwithin
    rw [if_neg (Nat.not_le.mpr hlast)]
    simp only [regular, hj, Option.all_some, Selection.dest] at hok
    exact ⟨hlast, .inl (by simpa using hok)⟩
  | scanRoom j partialSince =>
    obtain ⟨d, lower, upper, last, room', rooms, rows, hj, rfl⟩ := hx
    rintro rfl
    obtain ⟨hcov, hle, hset, hrows⟩ := h.sound _ (List.mem_of_getElem? hj) rfl
    refine ⟨hcov, hle, hset, fun user count hdue hlow hup => ?_⟩
    obtain ⟨hlast, hroom⟩ := hrows user count hdue hlow hup
    refine ⟨hlast, ?_⟩
    rcases hroom with hroom | ⟨r, hr, heq⟩
    · rcases List.mem_cons.mp hroom with rfl | hroom
      · -- the room is scanned now
        right
        refine ⟨⟨(user, count), hlow, hup⟩, List.mem_append_right _ ?_, rfl⟩
        refine (mem_roomRows (hset.le.trans h.posted.counter_le)).mpr ⟨hdue.1, hdue.2.1, ?_⟩
        have hfrom : (if lower = 0 then partialSince.getD 0 else lower) < count := by
          split
          · simp only [regular, hj, Option.all_some, Selection.scans] at hok
            have hfrom : partialSince.getD 0 ≤ floor := by simpa using hok
            exact hfrom.trans_lt hdue.2.2
          · exact hlow
        exact (Nat.min_le_left _ _).trans hfrom
      · exact .inl hroom
    · exact .inr ⟨r, List.mem_append_left _ hr, heq⟩
  | build j others =>
    obtain ⟨d, lower, upper, last, rows, hle, hj, rfl⟩ := hx
    intro hd
    obtain ⟨hcov, -, hset, hrows⟩ := h.sound _ (List.mem_of_getElem? hj) hd
    refine ⟨hcov, hset.mono selectEdus_le, fun user count hdue hlow hup => ?_⟩
    obtain ⟨hlast, hroom | ⟨r, hr, heq⟩⟩ := hrows user count hdue hlow (hup.trans selectEdus_le)
    · cases hroom
    · obtain ⟨g, hg, hcount, huser⟩ := mem_allChanges hr
      rw [heq] at hcount huser
      exact @selectEdus_announces (windowEnv hle last rows others) hlast g hg (hcount.le.trans hup) user huser
  | _ => cases hx

theorem Inv.step (h : Inv userIsLocal dest room floor s) (hok : regular dest room floor a s = true)
    (hs : step userIsLocal a s = some s') : Inv userIsLocal dest room floor s' := by
  refine ⟨h.posted.step (completes_of_regular hok) hs, ?_, fun x hx => ?_⟩
  · rcases delivered_step hs with ⟨heq, -⟩ | ⟨tx, htx, hdel, heq⟩
    · rw [Keys.latestEducount, heq]
      exact h.cursor.step hs
    · rw [Keys.latestEducount, heq, AList.lookup_insert_ite]
      split
      · -- the transaction covers what its window's start did not
        rename_i hd
        obtain ⟨hcov, hset, hann⟩ := h.sound _ htx hd.symm
        have hset' := hset.step (board_step hs)
        refine ⟨hset', fun user count hdue hle => ?_⟩
        have hdue' := due_of_step hs hset hle hdue
        by_cases hlow : count ≤ tx.since
        · exact (hcov.told user count hdue' hlow).step hs
        · have hlow := Nat.not_le.mp hlow
          exact ⟨tx, hdel ▸ List.mem_append_right _ (List.mem_singleton_self tx), hd.symm, hlow, hle,
            hann user count hdue' hlow hle⟩
      · exact h.cursor.step hs
  · rcases selections_step hs hx with hold | hnew
    · exact (h.sound x hold).step hs
    · exact (h.arises hok hs hnew).step hs

theorem inv_new : Inv userIsLocal dest room floor .new where
  posted := posted_new
  cursor := ⟨⟨Nat.zero_le _, fun p hp => by obtain ⟨w, hw, -⟩ := hp; cases hw⟩,
    fun _ _ hdue _ => absurd hdue.1 (SortedMap.not_mem_empty _)⟩
  sound x hx := absurd hx List.not_mem_nil

/-- No server's cursor passes a change of a local user's devices in a room it shares before
it was told of it, in any order of calls, selections, transactions, losses and restarts. -/
theorem cursor_passes_no_update
    (h : Reaches (step userIsLocal) (fun a s => regular dest room floor a s = true) .new s)
    {user : UserId} {count : Nat}
    (hrow : (toLex (room, count), user) ∈ s.keychangeidUserid) (hlocal : userIsLocal user = true)
    (hfloor : floor < count) (hpassed : count ≤ s.latestEducount dest) : Told dest s user count := by
  have hinv : Inv userIsLocal dest room floor s :=
    h.invariant inv_new fun _ _ _ hinv hok hs => hinv.step hok hs
  exact hinv.cursor.told user count ⟨hrow, hlocal, hfloor⟩ hpassed

end

def quiet : Others where
  env :=
    { latestEducount := 0
      currentCount := 0
      since_le := Nat.le_refl 0
      lastDeviceKeyUpdateCount := 0
      deviceChanges := .empty _
      allDeviceIds := fun _ => none
      allowOutgoingReadReceipts := false
      allowOutgoingPresence := false
      presence := none
      serverRooms := []
      rows := fun _ => []
      userIsLocal := fun _ => true
      decode := fun _ => none
      parseEventId := some
      getPduCount := fun _ => none }
  devices _ := none

/-- Two calls overlap; the selection waits for both and tells of both. -/
theorem cursor_passes_no_update_overlap : ∃ s,
    runWhile (step fun _ => true) (fun a s => regular "b" "!r:a" 0 a s = true)
      [.mark "@u:a", .mark "@v:a", .draw 0, .draw 1, .put 1 "!r:a", .announce 1, .leave 1,
        .put 0 "!r:a", .announce 0,
        .select "b", .leave 0, .bound 0, .lookup 0 ["!r:a"], .mark "@u:a", .draw 0, .put 0 "!r:a", .scanRoom 0 none,
        .build 0 quiet, .deliver 0] .new = some s ∧ Told "b" s "@u:a" 1 := by
  refine exists_of_map (fun s => (s.keychangeidUserid.get (toLex ("!r:a", 1)), s.latestEducount "b"))
    (v := (some "@u:a", 2)) (by decide) fun s hs heq => ?_
  obtain ⟨hrow, hcursor⟩ := Prod.mk.inj heq
  exact cursor_passes_no_update (.of_runWhile _ .init hs) (SortedMap.get_eq_some_iff.mp hrow) rfl (by decide)
    (hcursor ▸ by decide)

-- a call dropped between its row and the watermark: the cursor passes the row unsent
example : (runWhile (step fun _ => true) (fun _ _ => True)
    [.mark "@u:a", .draw 0, .put 0 "!r:a", .leave 0, .select "b", .bound 0, .lookup 0 ["!r:a"], .build 0 quiet,
      .deliver 0] .new).map (fun s => (s.latestEducount "b", s.delivered.map (·.edus.length))) = some (1, [0]) := by
  decide

/-! ## Tokens of clients -/

/-- A client was told of everything up to its token, and the end of its window is settled. -/
structure UpToDate (b : Board (Set (Owner × UserId))) (c : Client) : Prop where
  settled : b.Settled c.token
  told : ∀ user count, (c.user, user) ∈ b.shown count → count ≤ c.token → (user, count) ∈ c.inbox
  bound : ∀ u ∈ c.bound, b.Settled u

/-- The client that a step leaves in place of one, or adds. -/
def Asks (s : Keys) : Action → Client → Prop
  | .connect user, c => c = ⟨user, 0, none, []⟩
  | .syncBound k, c => ∃ c₀, s.clients[k]? = some c₀ ∧ s.writers = [] ∧ c = { c₀ with bound := some s.counter }
  | .syncScan k, c => ∃ c₀ u, s.clients[k]? = some c₀ ∧ c₀.bound = some u ∧
      c = ⟨c₀.user, u, none, c₀.inbox ++ keysChanged s.keychangeidUserid c₀.user (some c₀.token) none⟩
  | .restart, c => ∃ c₀ ∈ s.clients, c = { c₀ with bound := none }
  | _, _ => False

/-- Counts are positive and fit, and the clients are told. -/
structure ClientInv (s : Keys) : Prop where
  counter_le : s.counter ≤ u64Max
  held_pos : ∀ p ∈ s.board.held, 0 < p
  shown_pos : ∀ r p, r ∈ s.board.shown p → 0 < p
  clients : ∀ c ∈ s.clients, UpToDate s.board c

section
variable {userIsLocal : UserId → Bool} {a : Action} {s s' : Keys} {c : Client}

theorem counter_step (hs : step userIsLocal a s = some s') : s'.counter = s.counter ∨ s'.counter ≤ u64Max := by
  cases a with
  | mark user | select dest | connect user | restart =>
    cases hs
    exact .inl rfl
  | leave i | dropSelection j =>
    obtain ⟨w, -, rfl⟩ := Option.map_eq_some_iff.mp hs
    exact .inl rfl
  | other diff =>
    obtain ⟨count, hcount, rfl⟩ := Option.map_eq_some_iff.mp hs
    exact .inr (nextCountBatch_eq_some hcount).2
  | draw i =>
    simp only [step] at hs
    split at hs
    · obtain ⟨count, hcount, rfl⟩ := Option.map_eq_some_iff.mp hs
      exact .inr (nextCountBatch_eq_some hcount).2
    · cases hs
  | put i owner =>
    obtain ⟨w, user, count, -, -, rfl⟩ := put_eq_some hs
    exact .inl rfl
  | announce i | bound j | lookup j rooms | scanRoom j partialSince | build j others | deliver j | syncBound k
  | syncScan k =>
    simp only [step] at hs
    repeat' split at hs
    all_goals first | cases hs; exact .inl rfl | cases hs

theorem clients_step (hs : step userIsLocal a s = some s') (hc : c ∈ s'.clients) : c ∈ s.clients ∨ Asks s a c := by
  have hset : ∀ {k : Nat} {c₀ c' : Client}, s.clients[k]? = some c₀ → c ∈ s.clients.set k c' →
      c ∈ s.clients ∨ c = c' := by
    intro k c₀ c' hk hmem
    rcases mem_set_of_some hk hmem with heq | ⟨j, -, hj⟩
    · exact .inr heq
    · exact .inl (List.mem_of_getElem? hj)
  cases a with
  | connect user =>
    cases hs
    exact (List.mem_append.mp hc).imp id List.mem_singleton.mp
  | syncBound k =>
    simp only [step] at hs
    split at hs
    · rename_i c₀ hk
      split at hs
      · rename_i hw
        cases hs
        exact (hset hk hc).imp id fun heq => ⟨c₀, hk, hw, heq⟩
      · cases hs
    · cases hs
  | syncScan k =>
    simp only [step] at hs
    split at hs
    · rename_i user token u inbox hk
      cases hs
      exact (hset hk hc).imp id fun heq => ⟨_, u, hk, rfl, heq⟩
    · cases hs
  | restart =>
    cases hs
    obtain ⟨c₀, hc₀, rfl⟩ := List.mem_map.mp hc
    exact .inr ⟨c₀, hc₀, rfl⟩
  | mark user | select dest =>
    cases hs
    exact .inl hc
  | leave i | other diff | dropSelection j =>
    obtain ⟨w, -, rfl⟩ := Option.map_eq_some_iff.mp hs
    exact .inl hc
  | draw i =>
    simp only [step] at hs
    split at hs
    · obtain ⟨count, -, rfl⟩ := Option.map_eq_some_iff.mp hs
      exact .inl hc
    · cases hs
  | put i owner =>
    obtain ⟨w, user, count, -, -, rfl⟩ := put_eq_some hs
    exact .inl hc
  | announce i | bound j | lookup j rooms | scanRoom j partialSince | build j others | deliver j =>
    simp only [step] at hs
    repeat' split at hs
    all_goals first | cases hs; exact .inl hc | cases hs

theorem UpToDate.step {b b' : Board (Set (Owner × UserId))} (hs : b.Step b')
    (h : UpToDate b c) : UpToDate b' c where
  settled := h.settled.step hs
  told user count hrow hle := by
    rw [h.settled.shown_step hs hle] at hrow
    exact h.told user count hrow hle
  bound u hu := (h.bound u hu).step hs

theorem UpToDate.scan (h : UpToDate s.board c) (hmax : s.counter ≤ u64Max) {u : Nat} (hu : c.bound = some u) :
    UpToDate s.board ⟨c.user, u, none, c.inbox ++ keysChanged s.keychangeidUserid c.user (some c.token) none⟩ where
  settled := h.bound u hu
  told user count hrow hle := by
    by_cases hold : count ≤ c.token
    · exact List.mem_append_left _ (h.told user count hrow hold)
    · refine List.mem_append_right _ (mem_keysChanged.mpr ⟨hrow, ?_, ?_⟩)
      · exact (Nat.min_le_left _ _).trans (Nat.not_le.mp hold)
      · exact hle.trans ((h.bound u hu).le.trans hmax)
  bound u' hu' := by cases hu'

theorem ClientInv.asks (h : ClientInv s) (hc : Asks s a c) : UpToDate s.board c := by
  cases a with
  | connect user =>
    cases hc
    refine ⟨⟨Nat.zero_le _, h.held_pos⟩, fun user count hrow hle => ?_, fun u hu => by cases hu⟩
    exact absurd (h.shown_pos _ count hrow) (Nat.not_lt.mpr hle)
  | syncBound k =>
    obtain ⟨c₀, hk, hw, rfl⟩ := hc
    have hold := h.clients c₀ (List.mem_of_getElem? hk)
    refine ⟨hold.settled, hold.told, fun u hu => ?_⟩
    cases hu
    exact Board.settled_counter (by simp [Keys.board, hw])
  | syncScan k =>
    obtain ⟨c₀, u, hk, hu, rfl⟩ := hc
    exact (h.clients c₀ (List.mem_of_getElem? hk)).scan h.counter_le hu
  | restart =>
    obtain ⟨c₀, hc₀, rfl⟩ := hc
    have hold := h.clients c₀ hc₀
    exact ⟨hold.settled, hold.told, fun u hu => by cases hu⟩
  | _ => cases hc

theorem ClientInv.step (h : ClientInv s) (hs : step userIsLocal a s = some s') : ClientInv s' where
  counter_le := by
    rcases counter_step hs with heq | hle
    · exact heq.le.trans h.counter_le
    · exact hle
  held_pos p hp := by
    rcases (board_step hs).held p hp with hold | hnew
    · exact h.held_pos p hold
    · exact Nat.zero_lt_of_lt hnew
  shown_pos r p hr := by
    by_cases hle : p ≤ s.counter
    · by_cases hheld : p ∈ s.board.held
      · exact h.held_pos p hheld
      · rw [(board_step hs).shown p hle hheld] at hr
        exact h.shown_pos r p hr
    · exact Nat.zero_lt_of_lt (Nat.not_le.mp hle)
  clients c hc := by
    rcases clients_step hs hc with hold | hnew
    · exact (h.clients c hold).step (board_step hs)
    · exact (h.asks hnew).step (board_step hs)

theorem clientInv_new : ClientInv .new where
  counter_le := Nat.zero_le _
  held_pos p hp := by
    obtain ⟨w, hw, -⟩ := hp
    cases hw
  shown_pos r p hr := absurd hr (SortedMap.not_mem_empty _)
  clients c hc := absurd hc List.not_mem_nil

end

end Congruent.DeviceKeyUpdates
