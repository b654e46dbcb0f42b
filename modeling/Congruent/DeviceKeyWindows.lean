import Congruent.DeviceKeyUpdates

/-!
# Windows of device-key updates

No server's cursor and no client's token passes an update that was not announced to it,
whatever the order of writers, selections, transactions, requests and restarts.
-/

namespace Congruent.DeviceKeyUpdates

open DeviceListEdus
open ReceiptWindow (OutgoingEdu Env selectEduLimit)

/-! ## The rows of a window -/

theorem mem_keysChanged {t : SortedMap ChangeKey UserId} {owner : Owner} {since upTo : Option Nat} {user : UserId}
    {count : Nat} : (user, count) ∈ keysChanged t owner since upTo ↔ (toLex (owner, count), user) ∈ t ∧
      since.elim 0 (fun n => min (n + 1) u64Max) ≤ count ∧ count ≤ upTo.getD u64Max := by
  have hrows : (count, user) ∈ t.rowsFrom owner (since.elim 0 fun n => min (n + 1) u64Max)
      (fun n => n ≤ upTo.getD u64Max) ↔ _ :=
    SortedMap.mem_rowsFrom fun a b hab hb => decide_eq_true (hab.trans (of_decide_eq_true hb))
  rw [decide_eq_true_eq] at hrows
  rw [← hrows, keysChanged, List.mem_map]
  constructor
  · rintro ⟨⟨c, u⟩, hmem, heq⟩
    cases heq
    exact hmem
  · exact fun hmem => ⟨(count, user), hmem, rfl⟩

theorem keysChanged_sorted (t : SortedMap ChangeKey UserId) (owner : Owner) (since upTo : Option Nat) :
    (keysChanged t owner since upTo).Pairwise fun a b => a.2 < b.2 :=
  List.pairwise_map.mpr (t.rowsFrom_sorted owner _ _)

section
variable {userIsLocal : UserId → Bool} {t : SortedMap ChangeKey UserId} {room : Owner} {since lower upper : Nat}

theorem mem_roomRows {r : WindowRow lower upper} (hto : upper ≤ u64Max) :
    r ∈ roomRows userIsLocal t room since lower upper ↔
      (toLex (room, r.1.2), r.1.1) ∈ t ∧ userIsLocal r.1.1 ∧ min (since + 1) u64Max ≤ r.1.2 := by
  obtain ⟨⟨user, count⟩, hlow, hup⟩ := r
  unfold roomRows
  rw [List.takeWhile_eq_filter, List.mem_filterMap]
  · constructor
    · rintro ⟨⟨user', count'⟩, hmem, heq⟩
      split at heq
      · cases heq
        obtain ⟨hmem, -⟩ := List.mem_filter.mp hmem
        obtain ⟨hmem, hlocal⟩ := List.mem_filter.mp hmem
        obtain ⟨hrow, hfirst, -⟩ := mem_keysChanged.mp hmem
        exact ⟨hrow, hlocal, hfirst⟩
      · cases heq
    · rintro ⟨hrow, hlocal, hfirst⟩
      refine ⟨(user, count), List.mem_filter.mpr ⟨List.mem_filter.mpr ⟨mem_keysChanged.mpr ?_, hlocal⟩, ?_⟩, ?_⟩
      · exact ⟨hrow, hfirst, hup.trans hto⟩
      · exact decide_eq_true hup
      · exact dif_pos ⟨hlow, hup⟩
  · refine ((keysChanged_sorted t room _ _).sublist List.filter_sublist).imp fun hlt hb => ?_
    exact decide_eq_true (hlt.le.trans (of_decide_eq_true hb))

theorem mem_allChanges {rows : List (WindowRow lower upper)} {r : WindowRow lower upper} (h : r ∈ rows) :
    ∃ g ∈ (allChanges rows).groups, g.1 = r.1.2 ∧ r.1.1 ∈ g.2 := by
  refine ⟨_, List.mem_map_of_mem (mem_counts.mpr ⟨r, h, rfl⟩), rfl, ?_⟩
  simp only [List.mem_dedup, List.mem_map, List.mem_filter, decide_eq_true_eq]
  exact ⟨r, ⟨h, rfl⟩, rfl⟩

end

/-! ## What a selection announces -/

def Announces (devices : UserId → Option (List DeviceId)) (edus : List OutgoingEdu) (user : UserId) : Prop :=
  ∀ device ∈ deviceIds devices user, ∃ edu, .deviceList edu ∈ edus ∧ edu.userId = user ∧ edu.deviceId = device

section
variable {userDevices : UserId → Option (List DeviceId)} {limit : Nat}

theorem pushDevices_cut (count : Nat) (user : UserId) : ∀ (devices : List DeviceId) (events : List Edu),
    (pushDevices limit count user devices events).2 = false →
      limit ≤ (pushDevices limit count user devices events).1.length
  | [], _, h => by simp [pushDevices] at h
  | device :: devices, events, h => by
    unfold pushDevices at h ⊢
    by_cases hfull : limit ≤ events.length
    · rwa [if_pos hfull]
    · rw [if_neg hfull] at h ⊢
      exact pushDevices_cut count user devices _ h

theorem pushUsers_cut (count : Nat) : ∀ (users : List UserId) {b : Built},
    (pushUsers userDevices limit count users b).2 = false →
      limit ≤ (pushUsers userDevices limit count users b).1.events.length
  | [], _, h => by simp [pushUsers] at h
  | user :: users, b, h => by
    unfold pushUsers at h ⊢
    by_cases hl : user ∈ b.listed
    · rw [if_pos hl] at h ⊢
      exact pushUsers_cut count users h
    · rw [if_neg hl] at h ⊢
      split
      · rename_i heq
        simp only [heq] at h
        exact pushUsers_cut count users h
      · rename_i heq
        have hcut := @pushDevices_cut limit count user (deviceIds userDevices user) b.events
        rw [heq] at hcut
        exact hcut rfl

theorem pushGroups_cut : ∀ (groups : List (Nat × List UserId)) (cursor : Nat) {b : Built},
    (pushGroups userDevices limit groups cursor b).2.2 = true →
      limit ≤ (pushGroups userDevices limit groups cursor b).1.events.length
  | [], _, _, h => by simp [pushGroups] at h
  | (count, users) :: groups, cursor, b, h => by
    unfold pushGroups at h ⊢
    split
    · rename_i heq
      simp only [heq] at h
      exact pushGroups_cut groups count h
    · rename_i heq
      have hcut := @pushUsers_cut userDevices limit count users b
      rw [heq] at hcut
      exact hcut rfl

theorem cursor_of_no_edus {since : Nat × Nat} {changes : Changes since} (hlimit : 0 < limit)
    (h : (buildDeviceListEdus userDevices limit changes).1 = []) :
    (buildDeviceListEdus userDevices limit changes).2 = since.2 := by
  have hcut := @pushGroups_cut userDevices limit changes.groups since.1 ⟨[], []⟩
  unfold buildDeviceListEdus at h ⊢
  split
  · rename_i heq
    rw [heq] at hcut
    simp only [heq] at h
    have hlen := hcut rfl
    rw [h, List.length_nil] at hlen
    omega
  · rfl

end

section
variable {env : Env}

/-- The EDUs begin with the device lists, and the position that counts as sent is at most
theirs, unless there is nothing to send. -/
theorem selectEdus_devices : ∃ rest, env.selectEdus.1 = env.selectEdusDeviceChanges.1.map .deviceList ++ rest ∧
    (env.selectEdus.2 ≤ env.selectEdusDeviceChanges.2 ∨ env.selectEdus.1 = [] ∧
      env.selectEdus.2 = env.since.2) := by
  simp only [Env.selectEdus, List.append_assoc]
  generalize (if env.allowOutgoingReadReceipts = true then env.selectEdusReceipts
    else (none, env.since.2)) = receipts
  generalize (if env.allowOutgoingPresence = true then (env.presence, env.since.2)
    else (none, env.since.2)) = presence
  split
  · rename_i hempty
    exact ⟨_, rfl, .inr ⟨hempty, rfl⟩⟩
  · exact ⟨_, rfl, .inl ((Nat.min_le_left _ _).trans (Nat.min_le_left _ _))⟩

theorem selectEdus_le : env.selectEdus.2 ≤ env.since.2 := by
  obtain ⟨-, -, hle | ⟨-, heq⟩⟩ := @selectEdus_devices env
  · exact hle.trans Env.deviceMax_le
  · exact heq.le

theorem selectEdus_announces (hlast : env.since.1 < env.lastDeviceKeyUpdateCount) {g : Nat × List UserId}
    (hg : g ∈ env.deviceChanges.groups) (hle : g.1 ≤ env.selectEdus.2) {user : UserId} (hu : user ∈ g.2) :
    Announces env.allDeviceIds env.selectEdus.1 user := by
  have hscan : env.selectEdusDeviceChanges = buildDeviceListEdus env.allDeviceIds selectEduLimit
      env.deviceChanges :=
    if_neg (Nat.not_le.mpr hlast)
  obtain ⟨rest, hedus, hpos⟩ := @selectEdus_devices env
  have hcursor : g.1 ≤ env.selectEdusDeviceChanges.2 := by
    rcases hpos with hpos | ⟨hempty, -⟩
    · exact hle.trans hpos
    · have hnone : env.selectEdusDeviceChanges.1 = [] := by
        rw [hedus] at hempty
        exact List.map_eq_nil_iff.mp (List.append_eq_nil_iff.mp hempty).1
      rw [hscan] at hnone ⊢
      rw [cursor_of_no_edus (by decide) hnone]
      exact (env.deviceChanges.window g hg).2
  obtain ⟨-, -, hrep⟩ := @buildDeviceListEdus_spec env.allDeviceIds selectEduLimit _ env.deviceChanges
  obtain ⟨b, hw, hlisted, hev⟩ := hrep g hg (hscan ▸ hcursor)
  intro device hd
  obtain ⟨edu, hedu, huser, hdevice⟩ := hw.represented user (hlisted user hu) device hd
  refine ⟨edu, ?_, huser, hdevice⟩
  rw [hedus, hscan]
  exact List.mem_append_left _ (List.mem_map_of_mem (hev edu hedu))

end

/-! ## The barrier -/

def Keys.board (s : Keys) : Board (Set (Owner × UserId)) where
  counter := s.counter
  held := {p | ∃ w ∈ s.writers, w.held = some p}
  shown p := {r | (toLex (r.1, p), r.2) ∈ s.keychangeidUserid}

theorem board_put {s : Keys} {i : Nat} {w : Writer} {owner : Owner} {user : UserId} {count : Nat}
    (hi : s.writers[i]? = some w) (hw : w.held = some count) :
    s.board.Step ((s.putChange owner user count).setWriter i (.fanout user count)).board where
  counter_le := Nat.le_refl _
  held := by
    rintro p ⟨w', hw', hp⟩
    rcases mem_set_of_some hi hw' with rfl | ⟨j, -, hj⟩
    · cases hp
      exact .inl ⟨w, List.mem_of_getElem? hi, hw⟩
    · exact .inl ⟨w', List.mem_of_getElem? hj, hp⟩
  shown := by
    intro p _ hfree
    have hne : p ≠ count := fun heq => hfree ⟨w, List.mem_of_getElem? hi, heq ▸ hw⟩
    ext ⟨o, v⟩
    simp [Keys.board, Keys.setWriter, Keys.putChange, hne]

section
variable {userIsLocal : UserId → Bool} {a : Action} {s s' : Keys}

theorem board_step (h : step userIsLocal a s = some s') : s.board.Step s'.board := by
  -- writers that only lose positions
  have hless : ∀ {t : Keys}, t.counter = s.counter → t.keychangeidUserid = s.keychangeidUserid →
      (∀ w ∈ t.writers, w ∈ s.writers ∨ w.held = none) → s.board.Step t.board := by
    intro t hc ht hw
    refine ⟨hc.ge, ?_, fun p _ _ => by simp only [Keys.board, ht]⟩
    rintro p ⟨w, hmem, hp⟩
    rcases hw w hmem with hold | hnone
    · exact .inl ⟨w, hold, hp⟩
    · rw [hnone] at hp
      cases hp
  cases a with
  | mark user =>
    cases h
    refine hless rfl rfl fun w hw => ?_
    rcases List.mem_append.mp hw with hw | hw
    · exact .inl hw
    · rw [List.mem_singleton.mp hw]
      exact .inr rfl
  | draw i =>
    simp only [step] at h
    split at h
    · rename_i user hi
      obtain ⟨count, hcount, rfl⟩ := Option.map_eq_some_iff.mp h
      obtain ⟨rfl, -⟩ := nextCountBatch_eq_some hcount
      refine ⟨Nat.le_succ _, ?_, fun _ _ _ => rfl⟩
      rintro p ⟨w, hw, hp⟩
      rcases mem_set_of_some hi hw with rfl | ⟨j, -, hj⟩
      · cases hp
        exact .inr (Nat.lt_succ_self _)
      · exact .inl ⟨w, List.mem_of_getElem? hj, hp⟩
    · cases h
  | put i owner =>
    simp only [step] at h
    split at h
    · rename_i hi
      cases h
      exact board_put hi rfl
    · rename_i hi
      cases h
      exact board_put hi rfl
    · cases h
  | announce i =>
    simp only [step] at h
    split at h
    · rename_i user count hi
      cases h
      refine hless rfl rfl fun w hw => ?_
      rcases mem_set_of_some hi hw with rfl | ⟨j, -, hj⟩
      · exact .inr rfl
      · exact .inl (List.mem_of_getElem? hj)
    · cases h
  | leave i =>
    obtain ⟨w, -, rfl⟩ := Option.map_eq_some_iff.mp h
    exact hless rfl rfl fun w hw => .inl (List.mem_of_mem_eraseIdx hw)
  | other diff =>
    obtain ⟨count, hcount, rfl⟩ := Option.map_eq_some_iff.mp h
    obtain ⟨rfl, -⟩ := nextCountBatch_eq_some hcount
    exact ⟨Nat.le_add_right _ _, fun _ hp => .inl hp, fun _ _ _ => rfl⟩
  | restart =>
    cases h
    exact hless rfl rfl fun w hw => absurd hw List.not_mem_nil
  | select dest => cases h; exact .refl _
  | connect owner => cases h; exact .refl _
  | dropSelection j =>
    obtain ⟨x, -, rfl⟩ := Option.map_eq_some_iff.mp h
    exact .refl _
  | bound j | lookup j rooms | scanRoom j partialSince | build j others | deliver j | syncBound k | syncScan k =>
    simp only [step] at h
    repeat' split at h
    all_goals first | cases h; exact .refl _ | cases h

theorem put_eq_some {i : Nat} {owner : Owner} (h : step userIsLocal (.put i owner) s = some s') :
    ∃ w user count, s.writers[i]? = some w ∧ w.held = some count ∧
      s' = (s.putChange owner user count).setWriter i (.fanout user count) := by
  simp only [step] at h
  split at h
  · rename_i user count hi
    cases h
    exact ⟨_, user, count, hi, rfl, rfl⟩
  · rename_i user count hi
    cases h
    exact ⟨_, user, count, hi, rfl, rfl⟩
  · cases h

end

/-! ## The watermark -/

/-- Rows stand at counts drawn, and a row past the watermark is of a call that still goes on. -/
structure Posted (s : Keys) : Prop where
  counter_le : s.counter ≤ u64Max
  held_le : ∀ w ∈ s.writers, ∀ p, w.held = some p → p ≤ s.counter
  rows_le : ∀ owner count user, (toLex (owner, count), user) ∈ s.keychangeidUserid → count ≤ s.counter
  watermark : ∀ owner count user, (toLex (owner, count), user) ∈ s.keychangeidUserid →
    count ≤ s.lastDeviceKeyUpdateCount ∨ ∃ user', .fanout user' count ∈ s.writers

theorem posted_new : Posted .new :=
  ⟨Nat.zero_le _, fun _ hw => absurd hw List.not_mem_nil, fun _ _ _ h => absurd h (SortedMap.not_mem_empty _),
    fun _ _ _ h => absurd h (SortedMap.not_mem_empty _)⟩

section
variable {userIsLocal : UserId → Bool} {a : Action} {s s' t : Keys}

theorem Posted.of_eq (h : Posted s) (hc : s.counter ≤ t.counter) (hmax : t.counter ≤ u64Max)
    (ht : t.keychangeidUserid = s.keychangeidUserid)
    (hlast : s.lastDeviceKeyUpdateCount ≤ t.lastDeviceKeyUpdateCount)
    (hheld : ∀ w ∈ t.writers, ∀ p, w.held = some p → w ∈ s.writers ∨ p ≤ t.counter)
    (hfan : ∀ user count, .fanout user count ∈ s.writers →
      count ≤ t.lastDeviceKeyUpdateCount ∨ .fanout user count ∈ t.writers) : Posted t where
  counter_le := hmax
  held_le w hw p hp := by
    rcases hheld w hw p hp with hold | hle
    · exact (h.held_le w hold p hp).trans hc
    · exact hle
  rows_le owner count user hrow := (h.rows_le owner count user (ht ▸ hrow)).trans hc
  watermark owner count user hrow := by
    rcases h.watermark owner count user (ht ▸ hrow) with hle | ⟨user', hmem⟩
    · exact .inl (hle.trans hlast)
    · exact (hfan user' count hmem).imp id fun hmem => ⟨user', hmem⟩

theorem Posted.put (h : Posted s) {i : Nat} {w : Writer} {owner : Owner} {user : UserId} {count : Nat}
    (hi : s.writers[i]? = some w) (hw : w.held = some count) :
    Posted ((s.putChange owner user count).setWriter i (.fanout user count)) := by
  have hcount := h.held_le w (List.mem_of_getElem? hi) count hw
  have hself : .fanout user count ∈ s.writers.set i (.fanout user count) := mem_set_self hi _
  refine ⟨h.counter_le, fun w' hw' p hp => ?_, fun o c v hrow => ?_, fun o c v hrow => ?_⟩
  · rcases mem_set_of_some hi hw' with rfl | ⟨j, -, hj⟩
    · cases hp
      exact hcount
    · exact h.held_le w' (List.mem_of_getElem? hj) p hp
  · rcases SortedMap.mem_insert.mp hrow with heq | ⟨hrow, -⟩
    · cases heq
      exact hcount
    · exact h.rows_le o c v hrow
  · rcases SortedMap.mem_insert.mp hrow with heq | ⟨hrow, -⟩
    · cases heq
      exact .inr ⟨user, hself⟩
    · rcases h.watermark o c v hrow with hle | ⟨user', hmem⟩
      · exact .inl hle
      · right
        rcases eq_or_mem_set hi (.fanout user count) hmem with rfl | hmem
        · cases hw
          exact ⟨user, hself⟩
        · exact ⟨user', hmem⟩

/-- No call is dropped between its first row and the watermark. -/
def completes : Action → Keys → Bool
  | .leave i, s => s.writers[i]?.all fun w => !w.fansOut
  | _, _ => true

theorem Posted.step (h : Posted s) (hok : completes a s = true) (hs : step userIsLocal a s = some s') :
    Posted s' := by
  have hself : ∀ {t : Keys}, t.counter = s.counter → t.keychangeidUserid = s.keychangeidUserid →
      t.lastDeviceKeyUpdateCount = s.lastDeviceKeyUpdateCount → t.writers = s.writers → Posted t := by
    intro t hc ht hl hw
    exact h.of_eq hc.ge (hc.le.trans h.counter_le) ht hl.ge (fun w hmem _ _ => .inl (hw ▸ hmem))
      fun _ _ hmem => .inr (hw ▸ hmem)
  cases a with
  | mark user =>
    cases hs
    refine h.of_eq (Nat.le_refl _) h.counter_le rfl (Nat.le_refl _) (fun w hw p hp => ?_) fun _ _ hmem => ?_
    · rcases List.mem_append.mp hw with hw | hw
      · exact .inl hw
      · rw [List.mem_singleton.mp hw] at hp
        cases hp
    · exact .inr (List.mem_append_left _ hmem)
  | draw i =>
    simp only [DeviceKeyUpdates.step] at hs
    split at hs
    · rename_i user hi
      obtain ⟨count, hcount, rfl⟩ := Option.map_eq_some_iff.mp hs
      obtain ⟨rfl, hmax⟩ := nextCountBatch_eq_some hcount
      refine h.of_eq (Nat.le_succ _) hmax rfl (Nat.le_refl _) (fun w hw p hp => ?_) fun user' count' hmem => ?_
      · rcases mem_set_of_some hi hw with rfl | ⟨j, -, hj⟩
        · cases hp
          exact .inr (Nat.le_refl _)
        · exact .inl (List.mem_of_getElem? hj)
      · rcases eq_or_mem_set hi (.drawn user (s.counter + 1)) hmem with heq | hmem
        · cases heq
        · exact .inr hmem
    · cases hs
  | put i owner =>
    obtain ⟨w, user, count, hi, hw, rfl⟩ := put_eq_some hs
    exact h.put hi hw
  | announce i =>
    simp only [DeviceKeyUpdates.step] at hs
    split at hs
    · rename_i user count hi
      cases hs
      refine h.of_eq (Nat.le_refl _) h.counter_le rfl (Nat.le_max_left _ _) (fun w hw p hp => ?_)
        fun user' count' hmem => ?_
      · rcases mem_set_of_some hi hw with rfl | ⟨j, -, hj⟩
        · cases hp
        · exact .inl (List.mem_of_getElem? hj)
      · rcases eq_or_mem_set hi (.announced user count) hmem with heq | hmem
        · cases heq
          exact .inl (Nat.le_max_right _ _)
        · exact .inr hmem
    · cases hs
  | leave i =>
    obtain ⟨w, -, rfl⟩ := Option.map_eq_some_iff.mp hs
    refine h.of_eq (Nat.le_refl _) h.counter_le rfl (Nat.le_refl _)
      (fun w hw _ _ => .inl (List.mem_of_mem_eraseIdx hw)) fun user count hmem => .inr ?_
    obtain ⟨j, hj⟩ := List.mem_iff_getElem?.mp hmem
    refine List.mem_eraseIdx_iff_getElem?.mpr ⟨j, fun heq => ?_, hj⟩
    subst heq
    simp [completes, hj, Writer.fansOut] at hok
  | other diff =>
    obtain ⟨count, hcount, rfl⟩ := Option.map_eq_some_iff.mp hs
    obtain ⟨rfl, hmax⟩ := nextCountBatch_eq_some hcount
    exact h.of_eq (Nat.le_add_right _ _) hmax rfl (Nat.le_refl _) (fun _ hw _ _ => .inl hw)
      fun _ _ hmem => .inr hmem
  | restart =>
    cases hs
    refine ⟨h.counter_le, fun _ hw => absurd hw List.not_mem_nil, h.rows_le, fun o c v hrow => ?_⟩
    exact .inl (h.rows_le o c v hrow)
  | select dest => cases hs; exact hself rfl rfl rfl rfl
  | connect owner => cases hs; exact hself rfl rfl rfl rfl
  | dropSelection j =>
    obtain ⟨x, -, rfl⟩ := Option.map_eq_some_iff.mp hs
    exact hself rfl rfl rfl rfl
  | bound j | lookup j rooms | scanRoom j partialSince | build j others | deliver j | syncBound k | syncScan k =>
    simp only [DeviceKeyUpdates.step] at hs
    repeat' split at hs
    all_goals first | cases hs; exact hself rfl rfl rfl rfl | cases hs

theorem Posted.within (h : Posted s) {upper : Nat} (hset : s.board.Settled upper) {owner : Owner} {count : Nat}
    {user : UserId} (hrow : (toLex (owner, count), user) ∈ s.keychangeidUserid) (hle : count ≤ upper) :
    count ≤ s.lastDeviceKeyUpdateCount := by
  rcases h.watermark owner count user hrow with hwithin | ⟨user', hmem⟩
  · exact hwithin
  · exact absurd (hset.free count ⟨_, hmem, rfl⟩) (Nat.not_lt.mpr hle)

end

end Congruent.DeviceKeyUpdates
