import Mathlib.Algebra.BigOperators.Group.Finset.Basic
import Mathlib.Algebra.BigOperators.Group.List.Basic
import Mathlib.Algebra.GroupWithZero.Nat
import Mathlib.Algebra.Order.BigOperators.Group.Finset
import Mathlib.Data.Finset.Basic
import Mathlib.Data.List.Sort

/-!
# Device-list EDUs (`build_device_list_edus`)

The changes of a window go out in the order of their counts until the EDU limit is
reached. The cursor is the last count whose users all went out.
-/

namespace Congruent.DeviceListEdus

abbrev UserId := String
abbrev DeviceId := String

structure Edu where
  userId : UserId
  deviceId : DeviceId
  deviceDisplayName : Option String
  streamId : Nat
  prevId : List Nat
  deleted : Option Bool
  keys : Option String
  deriving DecidableEq

/-- `UInt::try_from(count).unwrap_or(1)`: the integers of canonical JSON. -/
def streamId (count : Nat) : Nat := if count < 2 ^ 53 then count else 1

/-- The changes within a window, by count; a group is listed in the order its set is
iterated. -/
structure Changes (since : Nat × Nat) where
  groups : List (Nat × List UserId)
  sorted : groups.Pairwise fun g g' => g.1 < g'.1
  nodup : ∀ g ∈ groups, g.2.Nodup
  window : ∀ g ∈ groups, since.1 < g.1 ∧ g.1 ≤ since.2

def Changes.empty (since : Nat × Nat) : Changes since :=
  ⟨[], .nil, fun _ hg => absurd hg List.not_mem_nil, fun _ hg => absurd hg List.not_mem_nil⟩

def deviceIds (userDevices : UserId → Option (List DeviceId)) (user : UserId) : List DeviceId :=
  match userDevices user with
  | some (d :: ds) => d :: ds
  | _ => ["placeholder"]

def deviceEdu (count : Nat) (user : UserId) (device : DeviceId) : Edu where
  userId := user
  deviceId := device
  deviceDisplayName := some "Placeholder"
  streamId := streamId count
  prevId := []
  deleted := none
  keys := none

/-- What went out so far, and `device_list_changes`. -/
structure Built where
  events : List Edu
  listed : List UserId

section
variable (userDevices : UserId → Option (List DeviceId)) (limit : Nat)

/-- The EDUs of one user, until the limit; whether all went out. -/
def pushDevices (count : Nat) (user : UserId) : List DeviceId → List Edu → List Edu × Bool
  | [], events => (events, true)
  | device :: devices, events =>
    if limit ≤ events.length then (events, false)
    else pushDevices count user devices (events ++ [deviceEdu count user device])

def pushUsers (count : Nat) : List UserId → Built → Built × Bool
  | [], b => (b, true)
  | user :: users, b =>
    if user ∈ b.listed then pushUsers count users b
    else
      match pushDevices limit count user (deviceIds userDevices user) b.events with
      | (events, true) => pushUsers count users ⟨events, b.listed ++ [user]⟩
      | (events, false) => (⟨events, b.listed⟩, false)

/-- The groups up to the first that does not go out whole: what went out, the last count
that did, and whether the limit was reached. -/
def pushGroups : List (Nat × List UserId) → Nat → Built → Built × Nat × Bool
  | [], cursor, b => (b, cursor, false)
  | (count, users) :: groups, cursor, b =>
    match pushUsers userDevices limit count users b with
    | (b, true) => pushGroups groups count b
    | (b, false) => (b, cursor, true)

def buildDeviceListEdus {since : Nat × Nat} (allChanges : Changes since) : List Edu × Nat :=
  match pushGroups userDevices limit allChanges.groups since.1 ⟨[], []⟩ with
  | (b, cursor, true) => (b.events, cursor)
  | (b, _, false) => (b.events, since.2)

/-! ## One user, one count -/

/-- How many EDUs a user takes. -/
def load (user : UserId) : Nat := (deviceIds userDevices user).length

def Represented (events : List Edu) (user : UserId) : Prop :=
  ∀ device ∈ deviceIds userDevices user, ∃ edu ∈ events, edu.userId = user ∧ edu.deviceId = device

/-- The users listed went out whole, and nothing else did. -/
structure Whole (b : Built) : Prop where
  within : b.events.length ≤ limit
  size : b.events.length = (b.listed.map (load userDevices)).sum
  nodup : b.listed.Nodup
  represented : ∀ user ∈ b.listed, Represented userDevices b.events user

end

section
variable {userDevices : UserId → Option (List DeviceId)} {limit : Nat}

theorem pushDevices_spec (count : Nat) (user : UserId) : ∀ (devices : List DeviceId) (events : List Edu),
    events.length ≤ limit →
    (events.length + devices.length ≤ limit →
      pushDevices limit count user devices events = (events ++ devices.map (deviceEdu count user), true)) ∧
    (limit < events.length + devices.length → (pushDevices limit count user devices events).2 = false) ∧
    (pushDevices limit count user devices events).1.length ≤ limit ∧
    ∀ edu ∈ events, edu ∈ (pushDevices limit count user devices events).1
  | [], events, h => by
    rw [List.length_nil, List.map_nil, List.append_nil]
    exact ⟨fun _ => rfl, fun hlt => by omega, h, fun _ he => he⟩
  | device :: devices, events, h => by
    unfold pushDevices
    by_cases hfull : limit ≤ events.length
    · rw [if_pos hfull, List.length_cons]
      exact ⟨fun hle => by omega, fun _ => rfl, h, fun _ he => he⟩
    · have ih := pushDevices_spec count user devices (events ++ [deviceEdu count user device])
        (by rw [List.length_append, List.length_singleton]; omega)
      rw [List.length_append, List.length_singleton] at ih
      obtain ⟨hfits, hcut, hlen, hmem⟩ := ih
      rw [if_neg hfull, List.length_cons]
      refine ⟨fun hle => ?_, fun hlt => hcut (by omega), hlen, fun edu he => hmem edu (List.mem_append_left _ he)⟩
      rw [hfits (by omega), List.append_assoc]
      rfl

theorem Represented.mono {events events' : List Edu} {user : UserId} (h : Represented userDevices events user)
    (hsub : ∀ edu ∈ events, edu ∈ events') : Represented userDevices events' user := by
  intro device hd
  obtain ⟨edu, he, hu⟩ := h device hd
  exact ⟨edu, hsub edu he, hu⟩

theorem Whole.push {b : Built} (h : Whole userDevices limit b) (count : Nat) {user : UserId}
    (hnew : user ∉ b.listed)
    (hfits : b.events.length + load userDevices user ≤ limit) :
    Whole userDevices limit
      ⟨b.events ++ (deviceIds userDevices user).map (deviceEdu count user), b.listed ++ [user]⟩ where
  within := by simpa [load] using hfits
  size := by simp [h.size, load]
  nodup := by
    rw [List.nodup_append]
    refine ⟨h.nodup, List.nodup_singleton user, fun a ha c hc => ?_⟩
    rw [List.mem_singleton.mp hc]
    exact fun heq => hnew (heq ▸ ha)
  represented := by
    intro u hu
    rcases List.mem_append.mp hu with hold | hlast
    · exact (h.represented u hold).mono fun edu he => List.mem_append_left _ he
    · rw [List.mem_singleton.mp hlast]
      intro device hd
      exact ⟨deviceEdu count user device, List.mem_append_right _ (List.mem_map_of_mem hd), rfl, rfl⟩

/-- What one group leaves: it goes out whole, or it is cut and the limit is kept. -/
theorem pushUsers_spec (count : Nat) : ∀ (users : List UserId) {b : Built}, Whole userDevices limit b →
    ((pushUsers userDevices limit count users b).2 = true →
      Whole userDevices limit (pushUsers userDevices limit count users b).1 ∧
      (∀ user ∈ b.listed, user ∈ (pushUsers userDevices limit count users b).1.listed) ∧
      ∀ user ∈ users, user ∈ (pushUsers userDevices limit count users b).1.listed) ∧
    (∀ edu ∈ b.events, edu ∈ (pushUsers userDevices limit count users b).1.events) ∧
    (pushUsers userDevices limit count users b).1.events.length ≤ limit
  | [], b, h => ⟨fun _ => ⟨h, fun _ hu => hu, fun _ hu => absurd hu List.not_mem_nil⟩, fun _ he => he, h.within⟩
  | user :: users, b, h => by
    unfold pushUsers
    by_cases hl : user ∈ b.listed
    · simp only [hl, if_true]
      obtain ⟨hall, hev, hlen⟩ := pushUsers_spec count users h
      refine ⟨fun ht => ?_, hev, hlen⟩
      obtain ⟨hw, hold, hnew⟩ := hall ht
      refine ⟨hw, hold, fun u hu => ?_⟩
      rcases List.mem_cons.mp hu with rfl | hu
      · exact hold u hl
      · exact hnew u hu
    · simp only [hl, if_false]
      have hspec := pushDevices_spec count user (deviceIds userDevices user) b.events h.within
      by_cases hfits : b.events.length + load userDevices user ≤ limit
      · rw [hspec.1 hfits]
        obtain ⟨hall, hev, hlen⟩ := pushUsers_spec count users (h.push count hl hfits)
        refine ⟨fun ht => ?_, fun edu he => hev edu (List.mem_append_left _ he), hlen⟩
        obtain ⟨hw, hold, hnew⟩ := hall ht
        refine ⟨hw, fun u hu => hold u (List.mem_append_left _ hu), fun u hu => ?_⟩
        rcases List.mem_cons.mp hu with rfl | hu
        · exact hold u (List.mem_append_right _ (List.mem_singleton_self u))
        · exact hnew u hu
      · obtain ⟨-, hcut, hlen, hmem⟩ := hspec
        have hcut := hcut (by unfold load at hfits; omega)
        split
        · rename_i heq
          rw [heq] at hcut
          cases hcut
        · rename_i events heq
          rw [heq] at hlen hmem
          exact ⟨fun ht => absurd ht Bool.false_ne_true, hmem, hlen⟩

/-- A count at or below the cursor went out whole, and a cut leaves the cursor where it
was. -/
theorem pushGroups_spec : ∀ (groups : List (Nat × List UserId)) (cursor : Nat) {b : Built},
    groups.Pairwise (fun g g' => g.1 < g'.1) → (∀ g ∈ groups, cursor < g.1) → Whole userDevices limit b →
    let r := pushGroups userDevices limit groups cursor b
    r.1.events.length ≤ limit ∧ (∀ edu ∈ b.events, edu ∈ r.1.events) ∧ cursor ≤ r.2.1 ∧
      (r.2.1 = cursor ∨ ∃ g ∈ groups, r.2.1 = g.1) ∧
      ∀ g ∈ groups, g.1 ≤ r.2.1 ∨ r.2.2 = false →
        ∃ b', Whole userDevices limit b' ∧ (∀ user ∈ g.2, user ∈ b'.listed) ∧ ∀ edu ∈ b'.events, edu ∈ r.1.events
  | [], cursor, b, _, _, h =>
    ⟨h.within, fun _ he => he, Nat.le_refl _, .inl rfl, fun _ hg => absurd hg List.not_mem_nil⟩
  | (count, users) :: groups, cursor, b, hsort, hlow, h => by
    obtain ⟨hhead, hsort⟩ := List.pairwise_cons.mp hsort
    obtain ⟨hall, hev, hlen⟩ := pushUsers_spec count users h
    have hcount : cursor < count := hlow _ List.mem_cons_self
    unfold pushGroups
    split
    · rename_i b' heq
      rw [heq] at hall hev hlen
      obtain ⟨hw, hold, hnew⟩ := hall rfl
      obtain ⟨hlen', hev', hle, hcur, hrep⟩ := pushGroups_spec groups count hsort hhead hw
      refine ⟨hlen', fun edu he => hev' edu (hev edu he), hcount.le.trans hle, ?_, fun g hg hor => ?_⟩
      · rcases hcur with hcur | ⟨g, hg, hcur⟩
        · exact .inr ⟨_, List.mem_cons_self, hcur⟩
        · exact .inr ⟨g, List.mem_cons_of_mem _ hg, hcur⟩
      · rcases List.mem_cons.mp hg with rfl | hg
        · exact ⟨b', hw, hnew, hev'⟩
        · exact hrep g hg hor
    · rename_i b' heq
      rw [heq] at hev hlen
      refine ⟨hlen, hev, Nat.le_refl _, .inl rfl, fun g hg hor => ?_⟩
      rcases hor with hle | hf
      · exact absurd hle (Nat.not_le.mpr (hlow g hg))
      · cases hf

end

/-! ## The cursor -/

theorem whole_empty (userDevices : UserId → Option (List DeviceId)) (limit : Nat) :
    Whole userDevices limit ⟨[], []⟩ :=
  ⟨Nat.zero_le _, rfl, .nil, fun _ hu => absurd hu List.not_mem_nil⟩

/-- The changes of the next call. -/
def Changes.after {since : Nat × Nat} (allChanges : Changes since) (cursor : Nat) : Changes (cursor, since.2) where
  groups := allChanges.groups.filter fun g => cursor < g.1
  sorted := allChanges.sorted.sublist List.filter_sublist
  nodup g hg := allChanges.nodup g (List.mem_of_mem_filter hg)
  window g hg := ⟨by simpa using (List.mem_filter.mp hg).2, (allChanges.window g (List.mem_of_mem_filter hg)).2⟩

section
variable {userDevices : UserId → Option (List DeviceId)} {limit : Nat} {since : Nat × Nat}
  (allChanges : Changes since)

/-- What one call does: the limit is kept, the cursor is the window's start, a count of it
or its end, and the counts up to the cursor went out whole. -/
theorem buildDeviceListEdus_spec :
    let r := buildDeviceListEdus userDevices limit allChanges
    r.1.length ≤ limit ∧ (r.2 = since.1 ∨ r.2 = since.2 ∨ ∃ g ∈ allChanges.groups, r.2 = g.1) ∧
      ∀ g ∈ allChanges.groups, g.1 ≤ r.2 →
        ∃ b', Whole userDevices limit b' ∧ (∀ user ∈ g.2, user ∈ b'.listed) ∧ ∀ edu ∈ b'.events, edu ∈ r.1 := by
  obtain ⟨hlen, -, -, hcur, hrep⟩ := pushGroups_spec allChanges.groups since.1 allChanges.sorted
    (fun g hg => (allChanges.window g hg).1) (whole_empty userDevices limit)
  unfold buildDeviceListEdus
  split
  · rename_i b cursor heq
    rw [heq] at hlen hcur hrep
    refine ⟨hlen, ?_, fun g hg hle => hrep g hg (.inl hle)⟩
    rcases hcur with hcur | hcur
    · exact .inl hcur
    · exact .inr (.inr hcur)
  · rename_i b cursor heq
    rw [heq] at hlen hrep
    exact ⟨hlen, .inr (.inl rfl), fun g hg _ => hrep g hg (.inr rfl)⟩

/-- At most `limit` EDUs go out and the cursor stays in the window. Every user with a
change up to the cursor is represented whole, and the changes above it are the next
call's. -/
theorem cursor_skips_no_change (hsince : since.1 ≤ since.2) :
    let r := buildDeviceListEdus userDevices limit allChanges
    r.1.length ≤ limit ∧ since.1 ≤ r.2 ∧ r.2 ≤ since.2 ∧
      (∀ g ∈ allChanges.groups, g.1 ≤ r.2 → ∀ user ∈ g.2, Represented userDevices r.1 user) ∧
      ∀ g ∈ allChanges.groups, r.2 < g.1 → g ∈ (allChanges.after r.2).groups := by
  intro r
  obtain ⟨hlen, hcur, hrep⟩ := @buildDeviceListEdus_spec userDevices limit since allChanges
  have hin : since.1 ≤ r.2 ∧ r.2 ≤ since.2 := by
    rcases hcur with hcur | hcur | ⟨g, hg, hcur⟩
    · exact ⟨hcur.ge, hcur.le.trans hsince⟩
    · exact ⟨hsince.trans hcur.ge, hcur.le⟩
    · obtain ⟨hlow, hhigh⟩ := allChanges.window g hg
      exact ⟨hlow.le.trans hcur.ge, hcur.le.trans hhigh⟩
  refine ⟨hlen, hin.1, hin.2, fun g hg hle user hu => ?_, fun g hg hlt => ?_⟩
  · obtain ⟨b', hw, hlisted, hev⟩ := hrep g hg hle
    exact (hw.represented user (hlisted user hu)).mono hev
  · exact List.mem_filter.mpr ⟨hg, decide_eq_true hlt⟩

end

def twoCounts : Changes (10, 20) where
  groups := [(15, ["@alice:example.com", "@bob:example.com"]), (18, ["@charlie:example.com"])]
  sorted := by decide
  nodup := by decide
  window := by decide

theorem twoCounts_represented :
    (10 : Nat) ≤ 20 ∧ (buildDeviceListEdus (fun _ => none) 2 twoCounts).2 = 15 ∧
      Represented (fun _ => none) (buildDeviceListEdus (fun _ => none) 2 twoCounts).1 "@bob:example.com" ∧
      (18, ["@charlie:example.com"]) ∈ (twoCounts.after 15).groups := by
  have hcur : (buildDeviceListEdus (fun _ => none) 2 twoCounts).2 = 15 := by decide
  obtain ⟨-, -, -, hrep, hnext⟩ :=
    @cursor_skips_no_change (fun _ => none) 2 (10, 20) twoCounts (by decide)
  rw [hcur] at hrep hnext
  exact ⟨by decide, hcur,
    hrep (15, ["@alice:example.com", "@bob:example.com"]) (by simp [twoCounts]) (by decide) _ (by simp),
    hnext (18, ["@charlie:example.com"]) (by simp [twoCounts]) (by decide)⟩

/-! ## Calling again from the cursor -/

section
variable {userDevices : UserId → Option (List DeviceId)} {limit : Nat}

theorem pushUsers_fits (count : Nat) : ∀ (users : List UserId) {b : Built}, Whole userDevices limit b →
    b.events.length + (users.map (load userDevices)).sum ≤ limit →
    (pushUsers userDevices limit count users b).2 = true
  | [], _, _, _ => rfl
  | user :: users, b, h, hfits => by
    rw [List.map_cons, List.sum_cons] at hfits
    unfold pushUsers
    by_cases hl : user ∈ b.listed
    · rw [if_pos hl]
      exact pushUsers_fits count users h (by omega)
    · have huser : b.events.length + load userDevices user ≤ limit := by omega
      obtain ⟨hall, -⟩ := pushDevices_spec count user (deviceIds userDevices user) b.events h.within
      rw [if_neg hl, hall huser]
      refine pushUsers_fits count users (h.push count hl huser) ?_
      rw [List.length_append, List.length_map]
      unfold load at hfits ⊢
      omega

theorem Whole.fits {b : Built} (h : Whole userDevices limit b) {users : List UserId} (hnodup : users.Nodup)
    (hlisted : ∀ user ∈ users, user ∈ b.listed) : (users.map (load userDevices)).sum ≤ limit := by
  have hsub : users.toFinset ⊆ b.listed.toFinset := fun u hu =>
    List.mem_toFinset.mpr (hlisted u (List.mem_toFinset.mp hu))
  calc (users.map (load userDevices)).sum
      = ∑ user ∈ users.toFinset, load userDevices user := (List.sum_toFinset _ hnodup).symm
    _ ≤ ∑ user ∈ b.listed.toFinset, load userDevices user := Finset.sum_le_sum_of_subset hsub
    _ = (b.listed.map (load userDevices)).sum := List.sum_toFinset _ h.nodup
    _ = b.events.length := h.size.symm
    _ ≤ limit := h.within

def demand (userDevices : UserId → Option (List DeviceId)) (listed users : List UserId) : Nat :=
  ∑ user ∈ listed.toFinset ∪ users.toFinset, load userDevices user

theorem demand_mono {listed users users' : List UserId} (h : ∀ user ∈ users, user ∈ users') :
    demand userDevices listed users ≤ demand userDevices listed users' := by
  refine Finset.sum_le_sum_of_subset (Finset.union_subset_union_right fun user hu => ?_)
  exact List.mem_toFinset.mpr (h user (List.mem_toFinset.mp hu))

theorem demand_append (listed users users' : List UserId) :
    demand userDevices (listed ++ users) users' = demand userDevices listed (users ++ users') := by
  simp only [demand, List.toFinset_append, Finset.union_assoc]

theorem Whole.demand_nil {b : Built} (h : Whole userDevices limit b) :
    demand userDevices b.listed [] = b.events.length := by
  rw [demand, List.toFinset_nil, Finset.union_empty, List.sum_toFinset _ h.nodup, h.size]

theorem Whole.demand_singleton {b : Built} (h : Whole userDevices limit b) {user : UserId}
    (hnew : user ∉ b.listed) :
    demand userDevices b.listed [user] = b.events.length + load userDevices user := by
  rw [demand, List.toFinset_cons, List.toFinset_nil, Finset.union_insert, Finset.union_empty,
    Finset.sum_insert (by simpa using hnew), List.sum_toFinset _ h.nodup, h.size, Nat.add_comm]

theorem pushUsers_whole_iff (count : Nat) : ∀ (users : List UserId) {b : Built}, Whole userDevices limit b →
    ((pushUsers userDevices limit count users b).2 = true ↔ demand userDevices b.listed users ≤ limit) ∧
    ((pushUsers userDevices limit count users b).2 = true → ∀ users',
      demand userDevices (pushUsers userDevices limit count users b).1.listed users' =
        demand userDevices b.listed (users ++ users'))
  | [], b, h => ⟨iff_of_true rfl (h.demand_nil.trans_le h.within), fun _ _ => rfl⟩
  | user :: users, b, h => by
    unfold pushUsers
    by_cases hl : user ∈ b.listed
    · have hin : ∀ users', demand userDevices b.listed (user :: users') = demand userDevices b.listed users' :=
        fun users' => by
          rw [demand, demand, List.toFinset_cons, Finset.union_insert,
            Finset.insert_eq_of_mem (Finset.mem_union_left _ (List.mem_toFinset.mpr hl))]
      simp only [hl, if_true, List.cons_append, hin]
      exact pushUsers_whole_iff count users h
    · have hspec := pushDevices_spec count user (deviceIds userDevices user) b.events h.within
      rw [if_neg hl]
      by_cases hfits : b.events.length + load userDevices user ≤ limit
      · rw [hspec.1 hfits]
        have ih := pushUsers_whole_iff count users (h.push count hl hfits)
        simp only [demand_append] at ih
        exact ih
      · have hheavy : limit < demand userDevices b.listed (user :: users) :=
          calc limit < b.events.length + load userDevices user := Nat.not_le.mp hfits
            _ = demand userDevices b.listed [user] := (h.demand_singleton hl).symm
            _ ≤ _ := demand_mono fun u hu => List.mem_singleton.mp hu ▸ List.mem_cons_self
        have hcut := hspec.2.1 (by unfold load at hfits; omega)
        split
        · rename_i heq
          rw [heq] at hcut
          cases hcut
        · exact ⟨iff_of_false Bool.false_ne_true (Nat.not_le.mpr hheavy), fun ht => absurd ht Bool.false_ne_true⟩

def usersUpTo (groups : List (Nat × List UserId)) (upper : Nat) : List UserId :=
  (groups.filter fun g => g.1 ≤ upper).flatMap (·.2)

theorem usersUpTo_cons {count upper : Nat} {users : List UserId} {groups : List (Nat × List UserId)}
    (h : count ≤ upper) : usersUpTo ((count, users) :: groups) upper = users ++ usersUpTo groups upper := by
  simp [usersUpTo, h]

/-- The limit is reached before a count just when the groups pass it, and those up to each
group from the count on do so already. -/
theorem pushGroups_lt_iff {n : Nat} : ∀ (groups : List (Nat × List UserId)) {cursor : Nat} {b : Built},
    groups.Pairwise (fun g g' => g.1 < g'.1) → cursor < n → Whole userDevices limit b →
    ((pushGroups userDevices limit groups cursor b).2.2 = true ∧
        (pushGroups userDevices limit groups cursor b).2.1 < n ↔
      limit < demand userDevices b.listed (groups.flatMap (·.2)) ∧
        ∀ g ∈ groups, n ≤ g.1 → limit < demand userDevices b.listed (usersUpTo groups g.1))
  | [], cursor, b, _, _, h => by
    refine iff_of_false (fun hr => Bool.false_ne_true hr.1) fun hr => absurd hr.1 (Nat.not_lt.mpr ?_)
    exact h.demand_nil.trans_le h.within
  | (count, users) :: groups, cursor, b, hsort, hlow, h => by
    obtain ⟨hhead, hsort⟩ := List.pairwise_cons.mp hsort
    obtain ⟨hiff, hlisted⟩ := @pushUsers_whole_iff userDevices limit count users b h
    -- the group is among those up to any group
    have hup : ∀ g ∈ groups, usersUpTo ((count, users) :: groups) g.1 = users ++ usersUpTo groups g.1 :=
      fun g hg => usersUpTo_cons (hhead g hg).le
    have hfirst : usersUpTo ((count, users) :: groups) count = users := by
      have hnone : groups.filter (fun g => g.1 ≤ count) = [] :=
        List.filter_eq_nil_iff.mpr fun g hg => by simpa using hhead g hg
      rw [usersUpTo_cons (Nat.le_refl count), usersUpTo, hnone, List.flatMap_nil, List.append_nil]
    unfold pushGroups
    split
    · rename_i b' heq
      have hfits := hiff.mp (by rw [heq])
      have hdemand := hlisted (by rw [heq])
      rw [heq] at hdemand
      obtain ⟨hwhole, -, -⟩ := (pushUsers_spec count users h).1 (by rw [heq])
      rw [heq] at hwhole
      by_cases hn : n ≤ count
      · refine iff_of_false (fun hr => ?_) fun hr => ?_
        · obtain ⟨-, -, hle, -, -⟩ := pushGroups_spec groups count hsort hhead hwhole
          exact absurd (hn.trans hle) (Nat.not_le.mpr hr.2)
        · have hlt := hr.2 _ List.mem_cons_self hn
          rw [hfirst] at hlt
          exact absurd hfits (Nat.not_le.mpr hlt)
      · rw [pushGroups_lt_iff groups hsort (Nat.not_le.mp hn) hwhole, hdemand]
        refine and_congr_right fun _ => ⟨fun hall g hg hle => ?_, fun hall g hg hle => ?_⟩
        · rcases List.mem_cons.mp hg with rfl | hg
          · exact absurd hle hn
          · rw [hup g hg, ← hdemand]
            exact hall g hg hle
        · rw [hdemand, ← hup g hg]
          exact hall g (List.mem_cons_of_mem _ hg) hle
    · rename_i b' heq
      have hheavy : limit < demand userDevices b.listed users :=
        Nat.not_le.mp fun hle => Bool.false_ne_true (by rw [← hiff.mpr hle, heq])
      refine iff_of_true ⟨rfl, hlow⟩ ⟨hheavy.trans_le (demand_mono fun u hu => List.mem_append_left _ hu), ?_⟩
      intro g hg _
      rcases List.mem_cons.mp hg with rfl | hg
      · rw [hfirst]
        exact hheavy
      · rw [hup g hg]
        exact hheavy.trans_le (demand_mono fun u hu => List.mem_append_left _ hu)

def Changes.demandUpTo {since : Nat × Nat} (allChanges : Changes since)
    (userDevices : UserId → Option (List DeviceId)) (upper : Nat) : Nat :=
  ∑ user ∈ (usersUpTo allChanges.groups upper).toFinset, load userDevices user

/-- The cursor stays below a count of the window just when the changes up to the end, and
those up to each change from the count on, take more than `limit` EDUs. -/
theorem cursor_lt_iff {since : Nat × Nat} (allChanges : Changes since) {n : Nat} (hlow : since.1 < n)
    (hhigh : n ≤ since.2) :
    (buildDeviceListEdus userDevices limit allChanges).2 < n ↔
      limit < allChanges.demandUpTo userDevices since.2 ∧
        ∀ g ∈ allChanges.groups, n ≤ g.1 → limit < allChanges.demandUpTo userDevices g.1 := by
  have hall : usersUpTo allChanges.groups since.2 = allChanges.groups.flatMap (·.2) := by
    rw [usersUpTo, List.filter_eq_self.mpr fun g hg => decide_eq_true (allChanges.window g hg).2]
  have hempty : ∀ users, demand userDevices [] users = ∑ user ∈ users.toFinset, load userDevices user :=
    fun users => by
    rw [demand, List.toFinset_nil, Finset.empty_union]
  have hiff := pushGroups_lt_iff allChanges.groups allChanges.sorted hlow (whole_empty userDevices limit)
  simp only [hempty] at hiff
  simp only [Changes.demandUpTo, hall]
  rw [← hiff]
  unfold buildDeviceListEdus
  split
  · rename_i heq
    rw [heq]
    exact ⟨fun hlt => ⟨rfl, hlt⟩, And.right⟩
  · rename_i heq
    rw [heq]
    exact iff_of_false (Nat.not_lt.mpr hhigh) fun hr => Bool.false_ne_true hr.1

end

/-- The window holds just these changes. -/
def Changes.Lists {since : Nat × Nat} (allChanges : Changes since) (changed : Nat → Finset UserId) : Prop :=
  ∀ count user, (∃ users, (count, users) ∈ allChanges.groups ∧ user ∈ users) ↔
    since.1 < count ∧ count ≤ since.2 ∧ user ∈ changed count

section
variable {changed : Nat → Finset UserId} {since : Nat × Nat} {allChanges : Changes since}

theorem Changes.Lists.toFinset (h : allChanges.Lists changed) {g : Nat × List UserId} (hg : g ∈ allChanges.groups) :
    g.2.toFinset = changed g.1 := by
  ext user
  rw [List.mem_toFinset]
  constructor
  · intro hu
    exact ((h g.1 user).mp ⟨g.2, hg, hu⟩).2.2
  · intro hu
    obtain ⟨hlow, hhigh⟩ := allChanges.window g hg
    obtain ⟨users, hmem, hu'⟩ := (h g.1 user).mpr ⟨hlow, hhigh, hu⟩
    have hcounts : (allChanges.groups.map Prod.fst).Nodup :=
      List.pairwise_map.mpr (allChanges.sorted.imp Nat.ne_of_lt)
    rwa [← List.inj_on_of_nodup_map hcounts hmem hg rfl]

variable {userDevices : UserId → Option (List DeviceId)} {limit : Nat}

theorem cursor_advances (hlists : allChanges.Lists changed) (hlt : since.1 < since.2)
    (hfits : ∀ count, since.1 < count → count ≤ since.2 → ∑ user ∈ changed count, load userDevices user ≤ limit) :
    since.1 < (buildDeviceListEdus userDevices limit allChanges).2 := by
  unfold buildDeviceListEdus
  cases hgroups : allChanges.groups with
  | nil => exact hlt
  | cons g groups =>
    have hg : g ∈ allChanges.groups := hgroups ▸ List.mem_cons_self
    obtain ⟨hlow, hhigh⟩ := allChanges.window g hg
    obtain ⟨hhead, hsort⟩ := List.pairwise_cons.mp (hgroups ▸ allChanges.sorted)
    have hload : (g.2.map (load userDevices)).sum ≤ limit := by
      rw [← List.sum_toFinset _ (allChanges.nodup g hg), hlists.toFinset hg]
      exact hfits g.1 hlow hhigh
    have hall := pushUsers_fits g.1 g.2 (whole_empty userDevices limit) (by simpa using hload)
    obtain ⟨hwhole, -, -⟩ := (pushUsers_spec g.1 g.2 (whole_empty userDevices limit)).1 hall
    obtain ⟨-, -, hle, -, -⟩ := pushGroups_spec groups g.1 hsort hhead hwhole
    unfold pushGroups
    split
    · rename_i b cursor heq
      split at heq
      · rename_i b' heq'
        rw [heq'] at hle
        rw [heq] at hle
        exact hlow.trans_le hle
      · rename_i b' heq'
        rw [heq'] at hall
        cases hall
    · exact hlt

theorem cursor_blocked (hlists : allChanges.Lists changed) {count : Nat} (hlow : since.1 < count)
    (hhigh : count ≤ since.2) (hheavy : limit < ∑ user ∈ changed count, load userDevices user) :
    (buildDeviceListEdus userDevices limit allChanges).2 < count := by
  by_contra hle
  obtain ⟨user, hu, -⟩ : ∃ user ∈ changed count, load userDevices user ≠ 0 :=
    Finset.exists_ne_zero_of_sum_ne_zero (Nat.ne_of_gt (Nat.zero_lt_of_lt hheavy))
  obtain ⟨users, hg, -⟩ := (hlists count user).mpr ⟨hlow, hhigh, hu⟩
  obtain ⟨-, -, hrep⟩ := @buildDeviceListEdus_spec userDevices limit since allChanges
  obtain ⟨b', hwhole, hlisted, -⟩ := hrep _ hg (Nat.not_lt.mp hle)
  have hload := hwhole.fits (allChanges.nodup _ hg) hlisted
  rw [← List.sum_toFinset _ (allChanges.nodup _ hg), hlists.toFinset hg] at hload
  exact absurd hload (Nat.not_le.mpr hheavy)

end

section
variable {changed : Nat → Finset UserId} {upper : Nat}
  (order : Nat → ∀ since, { allChanges : Changes (since, upper) // allChanges.Lists changed })
  (userDevices : UserId → Option (List DeviceId)) (limit start : Nat)

/-- The cursor after some calls, each starting from the one before; `order` is how each
iterates its sets. -/
def cursorAfter : Nat → Nat
  | 0 => start
  | n + 1 => (buildDeviceListEdus userDevices limit (order n (cursorAfter n)).1).2

variable {order userDevices limit start}

theorem cursorAfter_within (h : start ≤ upper) (n : Nat) :
    start ≤ cursorAfter order userDevices limit start n ∧ cursorAfter order userDevices limit start n ≤ upper := by
  induction n with
  | zero => exact ⟨Nat.le_refl _, h⟩
  | succ n ih =>
    obtain ⟨-, hlow, hhigh, -⟩ := @cursor_skips_no_change userDevices limit _
      (order n (cursorAfter order userDevices limit start n)).1 ih.2
    exact ⟨ih.1.trans hlow, hhigh⟩

theorem cursorAfter_reaches
    (hfits : ∀ count, start < count → count ≤ upper → ∑ user ∈ changed count, load userDevices user ≤ limit)
    (h : start ≤ upper) : ∀ (d n : Nat), upper - cursorAfter order userDevices limit start n ≤ d →
    ∃ m, cursorAfter order userDevices limit start m = upper
  | 0, n, hd => by
    obtain ⟨hlow, hhigh⟩ := @cursorAfter_within changed upper order userDevices limit start h n
    exact ⟨n, by omega⟩
  | d + 1, n, hd => by
    obtain ⟨hlow, hhigh⟩ := @cursorAfter_within changed upper order userDevices limit start h n
    by_cases hend : cursorAfter order userDevices limit start n = upper
    · exact ⟨n, hend⟩
    · have hnext : cursorAfter order userDevices limit start n < cursorAfter order userDevices
          limit start (n + 1) :=
        cursor_advances (order n _).2 (show _ < upper by omega) fun count hl =>
          hfits count (Nat.lt_of_le_of_lt hlow hl)
      exact cursorAfter_reaches hfits h d (n + 1) (by omega)

theorem cursorAfter_blocked {count : Nat} (hlow : start < count) (hhigh : count ≤ upper)
    (hheavy : limit < ∑ user ∈ changed count, load userDevices user) (n : Nat) :
    cursorAfter order userDevices limit start n < count := by
  induction n with
  | zero => exact hlow
  | succ n ih => exact cursor_blocked (order n (cursorAfter order userDevices limit start n)).2 ih hhigh hheavy

variable (order userDevices limit start) in
/-- Calling again and again from the cursor gets to the end of the window just when the
users of each count take at most `limit` EDUs together. -/
theorem cursor_reaches_end_iff :
    (∃ n, cursorAfter order userDevices limit start n = upper) ↔
      ∀ count, start < count → count ≤ upper → ∑ user ∈ changed count, load userDevices user ≤ limit := by
  constructor
  · rintro ⟨n, hn⟩ count hlow hhigh
    by_contra hheavy
    have hblocked : cursorAfter order userDevices limit start n < count :=
      cursorAfter_blocked hlow hhigh (Nat.not_le.mp hheavy) n
    omega
  · intro hfits
    by_cases h : start ≤ upper
    · exact cursorAfter_reaches hfits h _ 0 (Nat.le_refl _)
    · refine ⟨1, ?_⟩
      have hnone : (order 0 start).1.groups = [] := by
        refine List.eq_nil_iff_forall_not_mem.mpr fun g hg => ?_
        obtain ⟨hlow, hhigh⟩ := (order 0 start).1.window g hg
        exact h (hlow.le.trans hhigh)
      show (buildDeviceListEdus userDevices limit (order 0 start).1).2 = upper
      unfold buildDeviceListEdus
      rw [hnone]
      rfl

end

def aliceAt (count : Nat) : Finset UserId := if count = 15 then {"@alice:example.com"} else ∅

def aliceChange (since : Nat) : { allChanges : Changes (since, 20) // allChanges.Lists aliceAt } :=
  if h : since < 15 then
    ⟨⟨[(15, ["@alice:example.com"])], List.pairwise_singleton _ _, by decide, fun g hg => by
        rw [List.mem_singleton.mp hg]
        exact ⟨h, (by decide : 15 ≤ 20)⟩⟩, fun count user => by
      by_cases hc : count = 15
      · simp [hc, aliceAt, h]
      · simp [hc, aliceAt]⟩
  else
    ⟨.empty _, fun count user => by
      by_cases hc : count = 15
      · simp [Changes.empty, hc, h]
      · simp [Changes.empty, hc, aliceAt]⟩

/-- A user with more devices than the limit holds the cursor where it is. -/
theorem alice_never_passed : ¬ ∃ n, cursorAfter (fun _ => aliceChange) (fun _ => some ["A", "B"]) 1 10 n = 20 := by
  rintro ⟨n, hn⟩
  have hblocked : cursorAfter (fun _ => aliceChange) (fun _ => some ["A", "B"]) 1 10 n < 15 :=
    cursorAfter_blocked (by decide) (by decide) (by decide) n
  omega

end Congruent.DeviceListEdus
