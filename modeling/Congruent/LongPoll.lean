import Congruent.Watchers

/-!
# No lost wake-up

A request that sleeps has nothing to send, or a writer is on its way to wake it. Armed
before it scans, a request is woken by what commits after a scan and finds what committed
before.
-/

namespace Congruent.Watchers

theorem covers_iff {p key : Watch} : p.covers key = true ↔ p.1 = key.1 ∧ p.2 <+: key.2 := by
  simp [Watch.covers]

theorem mem_triggered {known : List Watch} {p key : Watch} :
    p ∈ triggered known key ↔ p ∈ known ∧ p.covers key = true := by
  simp only [triggered, List.mem_filter, List.mem_map, List.mem_inits, decide_eq_true_eq, covers_iff]
  constructor
  · rintro ⟨⟨q, hq, rfl⟩, hknown⟩
    exact ⟨hknown, rfl, hq⟩
  · rintro ⟨hknown, hmap, hq⟩
    exact ⟨⟨p.2, hq, Prod.ext hmap.symm rfl⟩, hknown⟩

theorem lookup_applyOp {rows : Rows} {op : Watch × Option Nat} {key : Watch} {count : Nat}
    (h : (applyOp rows op).lookup key = some count) : rows.lookup key = some count ∨ op = (key, some count) := by
  obtain ⟨key', value⟩ := op
  unfold applyOp at h
  cases value with
  | none =>
    rw [AList.lookup_erase_eq] at h
    split at h
    · cases h
    · exact .inl h
  | some n =>
    rw [AList.lookup_insert_ite] at h
    split at h
    · rename_i heq
      cases h
      exact .inr (by rw [heq])
    · exact .inl h

theorem lookup_applyOps {ops : List (Watch × Option Nat)} : ∀ {rows : Rows} {key : Watch} {count : Nat},
    (ops.foldl applyOp rows).lookup key = some count → rows.lookup key = some count ∨ (key, some count) ∈ ops := by
  induction ops with
  | nil => exact fun h => .inl h
  | cons op ops ih =>
    intro rows key count h
    rcases ih h with hrow | hmem
    · rcases lookup_applyOp hrow with hrow | heq
      · exact .inl hrow
      · exact .inr (heq ▸ List.mem_cons_self)
    · exact .inr (List.mem_cons_of_mem _ hmem)

theorem mem_roomsJoined {rows : Rows} {user room : Bytes} : room ∈ roomsJoined rows user ↔
    ∃ key count, rows.lookup key = some count ∧ key.1 = .userroomidJoined ∧ (user ++ [sep]) <+: key.2 ∧
      room = key.2.drop (user.length + 1) := by
  simp only [roomsJoined, List.mem_filterMap]
  constructor
  · rintro ⟨⟨key, count⟩, hmem, hif⟩
    split at hif
    · rename_i hjoin
      cases hif
      exact ⟨key, count, AList.mem_entries_iff.mp hmem, hjoin.1, hjoin.2, rfl⟩
    · cases hif
  · rintro ⟨key, count, hrow, hmap, hpre, rfl⟩
    exact ⟨⟨key, count⟩, AList.mem_entries_iff.mpr hrow, if_pos ⟨hmap, hpre⟩⟩

/-! ## Alarms -/

def Writer.Rings (w : Writer) (r : Request) : Prop :=
  (∃ key ∈ w.keys, ∃ p ∈ r.listening, p.covers key = true) ∨ ∃ p ∈ w.ringing, p ∈ r.listening

def Alarm (s : World) (r : Request) : Prop := r.notified = true ∨ ∃ w ∈ s.writers, w.Rings r

theorem Alarm.of_writers {s s' : World} {r r' : Request} (h : Alarm s r)
    (hn : r.notified = true → r'.notified = true)
    (hl : ∀ p ∈ r.listening, p ∈ r'.listening) (hw : ∀ w ∈ s.writers, w ∈ s'.writers) : Alarm s' r' := by
  rcases h with hnot | ⟨w, hmem, hrings⟩
  · exact .inl (hn hnot)
  · refine .inr ⟨w, hw w hmem, ?_⟩
    rcases hrings with ⟨key, hkey, p, hp, hcov⟩ | ⟨p, hp, hlis⟩
    · exact .inl ⟨key, hkey, p, hl p hp, hcov⟩
    · exact .inr ⟨p, hp, hl p hlis⟩

section
variable {s : World} {j : Nat} {keys : List Watch} {r : Request}

theorem Alarm.lookup {key : Watch} (h : Alarm s r) (hj : s.writers[j]? = some ⟨key :: keys, []⟩)
    (hknown : ∀ p ∈ r.listening, p ∈ s.known) : Alarm (s.setWriter j ⟨keys, triggered s.known key⟩) r := by
  rcases h with hnot | ⟨w, hmem, hrings⟩
  · exact .inl hnot
  · right
    rcases eq_or_mem_set hj ⟨keys, triggered s.known key⟩ hmem with rfl | hmem
    · refine ⟨_, mem_set_self hj _, ?_⟩
      rcases hrings with ⟨key', hkey', p, hp, hcov⟩ | ⟨p, hp, -⟩
      · rcases List.mem_cons.mp hkey' with rfl | hkey'
        · exact .inr ⟨p, mem_triggered.mpr ⟨hknown p hp, hcov⟩, hp⟩
        · exact .inl ⟨key', hkey', p, hp, hcov⟩
      · cases hp
    · exact ⟨w, hmem, hrings⟩

theorem Alarm.notify {ringing : List Watch} (h : Alarm s r) (hj : s.writers[j]? = some ⟨keys, ringing⟩) {s' : World}
    (hs' : s'.writers = s.writers.set j ⟨keys, []⟩) :
    Alarm s' { r with notified := r.notified || ringing.any (· ∈ r.listening) } := by
  rcases h with hnot | ⟨w, hmem, hrings⟩
  · exact .inl (by simp [hnot])
  · rcases eq_or_mem_set hj ⟨keys, []⟩ hmem with rfl | hmem
    · rcases hrings with hkey | ⟨p, hp, hlis⟩
      · exact .inr ⟨⟨keys, []⟩, hs' ▸ mem_set_self hj _, .inl hkey⟩
      · left
        have hany : ringing.any (· ∈ r.listening) = true := List.any_eq_true.mpr ⟨p, hp, decide_eq_true hlis⟩
        simp [hany]
    · exact .inr ⟨w, hs' ▸ hmem, hrings⟩

end

/-! ## Armed requests -/

def Phase.bound? : Phase → Option Nat
  | .building bound _ _ | .asleep bound => some bound
  | .arming _ _ | .answered => none

def Phase.scanned (listening : List Watch) : Phase → List Watch
  | .building _ done _ => done
  | .asleep _ => listening
  | .arming _ _ | .answered => []

variable (shortRoomid : Bytes → Option Bytes)

def Shaped (known : List Watch) (r : Request) : Prop :=
  match r.phase with
  | .arming entered todo => (entered = true → ∀ p ∈ todo.head?, p ∈ known) ∧
      (r.rooms = none → r.listening ++ todo = ownFirst r.user r.device) ∧
      ∀ rooms, r.rooms = some rooms → r.listening ++ todo = watches shortRoomid r.user r.device rooms
  | .building _ done todo => r.listening = done ++ todo ∧
      ∃ rooms, r.rooms = some rooms ∧ r.listening = watches shortRoomid r.user r.device rooms
  | .asleep _ => ∃ rooms, r.rooms = some rooms ∧ r.listening = watches shortRoomid r.user r.device rooms
  | .answered => True

/-- What is behind the request is known to it, or it is going to be woken. -/
structure Armed (s : World) (r : Request) : Prop where
  known : ∀ p ∈ r.listening, p ∈ s.known
  shape : Shaped shortRoomid s.known r
  first : ∀ rooms, r.rooms = some rooms → ∀ p ∈ ownFirst r.user r.device, p ∈ r.listening
  rooms : ∀ rooms, r.rooms = some rooms → ∀ room ∈ roomsJoined s.rows r.user, room ∈ rooms ∨ Alarm s r
  bound : ∀ b ∈ r.phase.bound?, ∀ key count, s.rows.lookup key = some count →
    (∃ p ∈ r.listening, p.covers key = true) → count ≤ b ∨ Alarm s r
  scanned : ∀ key count, s.rows.lookup key = some count →
    (∃ p ∈ r.phase.scanned r.listening, p.covers key = true) → r.delta key count = true →
      count ≤ r.since ∨ Alarm s r

variable {shortRoomid} {s s' : World} {r : Request}

theorem Shaped.mono {known known' : List Watch} (h : Shaped shortRoomid known r) (hk : ∀ p ∈ known, p ∈ known')
    (n : Bool) : Shaped shortRoomid known' { r with notified := n } := by
  obtain ⟨user, device, since, delta, rooms, listening, phase, notified⟩ := r
  cases phase with
  | arming entered todo => exact ⟨fun he p hp => hk p (h.1 he p hp), h.2⟩
  | building b done todo => exact h
  | asleep b => exact h
  | answered => trivial

theorem Armed.mono (h : Armed shortRoomid s r) (s' : World) (hrows : s'.rows = s.rows)
    (hk : ∀ p ∈ s.known, p ∈ s'.known) (n : Bool) (halarm : Alarm s r → Alarm s' { r with notified := n }) :
    Armed shortRoomid s' { r with notified := n } where
  known p hp := hk p (h.known p hp)
  shape := h.shape.mono hk n
  first := h.first
  rooms rooms hr room hroom := (h.rooms rooms hr room (hrows ▸ hroom)).imp id halarm
  bound b hb key count hrow hp := (h.bound b hb key count (hrows ▸ hrow) hp).imp id halarm
  scanned key count hrow hp hd := (h.scanned key count (hrows ▸ hrow) hp hd).imp id halarm

theorem Armed.keep (h : Armed shortRoomid s r) (hrows : s'.rows = s.rows) (hk : ∀ p ∈ s.known, p ∈ s'.known)
    (halarm : Alarm s r → Alarm s' r) : Armed shortRoomid s' r :=
  h.mono s' hrows hk r.notified halarm

theorem Armed.commit (h : Armed shortRoomid s r) {ops : List (Watch × Option Nat)} :
    Armed shortRoomid
      { s with rows := ops.foldl applyOp s.rows, writers := s.writers ++ [⟨ops.map (·.1), []⟩] } r := by
  let t : World := { s with rows := ops.foldl applyOp s.rows, writers := s.writers ++ [⟨ops.map (·.1), []⟩] }
  have hold : Alarm s r → Alarm t r := fun ha =>
    ha.of_writers id (fun _ hp => hp) fun w hw => List.mem_append_left _ hw
  have hnew : ∀ {key : Watch} {count : Nat}, (key, some count) ∈ ops →
      (∃ p ∈ r.listening, p.covers key = true) → Alarm t r := by
    intro key count hmem ⟨p, hp, hcov⟩
    refine .inr ⟨⟨ops.map (·.1), []⟩, List.mem_append_right _ (List.mem_singleton_self _), .inl ⟨key, ?_, p, ?_⟩⟩
    · exact List.mem_map_of_mem (f := Prod.fst) hmem
    · exact ⟨hp, hcov⟩
  refine ⟨h.known, h.shape, h.first, fun rooms hr room hroom => ?_, fun b hb key count hrow hp => ?_,
    fun key count hrow hp hd => ?_⟩
  · obtain ⟨key, count, hrow, hmap, hpre, rfl⟩ := mem_roomsJoined.mp hroom
    rcases lookup_applyOps hrow with hrow | hmem
    · exact (h.rooms rooms hr _ (mem_roomsJoined.mpr ⟨key, count, hrow, hmap, hpre, rfl⟩)).imp id hold
    · refine .inr (hnew hmem ⟨(.userroomidJoined, r.user ++ [sep]), h.first rooms hr _ (by simp [ownFirst]), ?_⟩)
      exact covers_iff.mpr ⟨hmap.symm, hpre⟩
  · rcases lookup_applyOps hrow with hrow | hmem
    · exact (h.bound b hb key count hrow hp).imp id hold
    · exact .inr (hnew hmem hp)
  · rcases lookup_applyOps hrow with hrow | hmem
    · exact (h.scanned key count hrow hp hd).imp id hold
    · obtain ⟨p, hp, hcov⟩ := hp
      refine .inr (hnew hmem ⟨p, ?_, hcov⟩)
      -- what was scanned is listened to
      have hshape := h.shape
      unfold Shaped at hshape
      unfold Phase.scanned at hp
      split at hp
      · rename_i hphase
        rw [hphase] at hshape
        exact hshape.1 ▸ List.mem_append_left _ hp
      · exact hp
      · cases hp
      · cases hp

/-! ## Steps of a request -/

section
variable {user device : Bytes} {since : Nat} {delta : Watch → Nat → Bool} {rooms : Option (List Bytes)}
  {listening todo done : List Watch}
  {notified : Bool} {p : Watch} {i b : Nat}

theorem armed_start (s : World) (user device : Bytes) (since : Nat) (delta : Watch → Nat → Bool) :
    Armed shortRoomid s (.start user device since delta) where
  known p hp := absurd hp List.not_mem_nil
  shape := ⟨fun h => absurd h Bool.false_ne_true, fun _ => rfl, fun rooms h => by cases h⟩
  first rooms h := by cases h
  rooms rooms h := by cases h
  bound b h := by cases h
  scanned key count _ h _ := by
    obtain ⟨p, hp, -⟩ := h
    cases hp

theorem Armed.register
    (h : Armed shortRoomid s ⟨user, device, since, delta, rooms, listening, .arming false (p :: todo), notified⟩) :
    Armed shortRoomid { s with known := p :: s.known }
      ⟨user, device, since, delta, rooms, listening, .arming true (p :: todo), notified⟩ where
  known q hq := List.mem_cons_of_mem _ (h.known q hq)
  shape := ⟨fun _ q hq => by cases hq; exact List.mem_cons_self, h.shape.2⟩
  first := h.first
  rooms := h.rooms
  bound b hb := by cases hb
  scanned key count _ hq _ := by
    obtain ⟨q, hq, -⟩ := hq
    cases hq

theorem Armed.listen
    (h : Armed shortRoomid s ⟨user, device, since, delta, rooms, listening, .arming true (p :: todo), notified⟩) :
    Armed shortRoomid s ⟨user, device, since, delta, rooms, listening ++ [p], .arming false todo, notified⟩ where
  known q hq := by
    rcases List.mem_append.mp hq with hq | hq
    · exact h.known q hq
    · exact List.mem_singleton.mp hq ▸ h.shape.1 rfl p rfl
  shape := by
    refine ⟨fun he => absurd he Bool.false_ne_true, ?_⟩
    simpa only [List.append_assoc, List.singleton_append] using h.shape.2
  first l hl q hq := List.mem_append_left _ (h.first l hl q hq)
  rooms l hl room hroom := (h.rooms l hl room hroom).imp id fun ha =>
    ha.of_writers id (fun q hq => List.mem_append_left _ hq) fun w hw => hw
  bound b hb := by cases hb
  scanned key count _ hq _ := by
    obtain ⟨q, hq, -⟩ := hq
    cases hq

theorem Armed.readRooms (h : Armed shortRoomid s ⟨user, device, since, delta, none, listening,
    .arming false [], notified⟩) :
    Armed shortRoomid s ⟨user, device, since, delta, some (roomsJoined s.rows user), listening,
      .arming false ((roomsJoined s.rows user).flatMap (roomWatches shortRoomid user) ++ ownLast user),
      notified⟩ := by
  have hown : listening = ownFirst user device := by simpa using h.shape.2.1 rfl
  subst hown
  exact
    { known := h.known
      shape := ⟨fun he => absurd he Bool.false_ne_true, fun hr => (by cases hr), fun l hl => (by cases hl; rfl)⟩
      first := fun _ _ q hq => hq
      rooms := fun l hl room hroom => .inl (by cases hl; exact hroom)
      bound := fun b hb => (by cases hb)
      scanned := fun key count _ ⟨q, hq, _⟩ _ => absurd hq List.not_mem_nil }

theorem Armed.bounds (h : Armed shortRoomid s ⟨user, device, since, delta, rooms, listening,
    .arming false [], notified⟩)
    {l : List Bytes} (hl : rooms = some l) (hrows : ∀ key count, s.rows.lookup key = some count →
      count ≤ s.counter) :
    Armed shortRoomid s ⟨user, device, since, delta, rooms, listening, .building s.counter []
      listening, notified⟩ where
  known := h.known
  shape := ⟨rfl, l, hl, by simpa using h.shape.2.2 l hl⟩
  first := h.first
  rooms := h.rooms
  bound b hb key count hrow _ := by
    cases hb
    exact .inl (hrows key count hrow)
  scanned key count _ hq _ := by
    obtain ⟨q, hq, -⟩ := hq
    cases hq

/-- A watch whose scan finds nothing: what it covers is behind the request, past the window or
nothing to tell. -/
theorem Armed.scan
    (h : Armed shortRoomid s ⟨user, device, since, delta, rooms, listening, .building b done (p :: todo), notified⟩)
    (hnone : ∀ key count, s.rows.lookup key = some count → p.covers key = true → delta key count = true →
      since < count → ¬ count ≤ b) :
    Armed shortRoomid s ⟨user, device, since, delta, rooms, listening, .building b (done ++ [p])
      todo, notified⟩ where
  known := h.known
  shape := ⟨by rw [List.append_assoc]; exact h.shape.1, h.shape.2⟩
  first := h.first
  rooms := h.rooms
  bound := h.bound
  scanned key count hrow hq hd := by
    obtain ⟨q, hq, hcov⟩ := hq
    rcases List.mem_append.mp hq with hq | hq
    · exact h.scanned key count hrow ⟨q, hq, hcov⟩ hd
    · rw [List.mem_singleton.mp hq] at hcov
      have hparts : listening = done ++ p :: todo := h.shape.1
      have hlisten : p ∈ listening := hparts ▸ List.mem_append_right _ List.mem_cons_self
      by_cases hold : count ≤ since
      · exact .inl hold
      · rcases h.bound b rfl key count hrow ⟨p, hlisten, hcov⟩ with hle | halarm
        · exact absurd hle (hnone key count hrow hcov hd (Nat.not_le.mp hold))
        · exact .inr halarm

theorem Armed.sleep (h : Armed shortRoomid s ⟨user, device, since, delta, rooms, listening,
    .building b done [], notified⟩) :
    Armed shortRoomid s ⟨user, device, since, delta, rooms, listening, .asleep b, notified⟩ where
  known := h.known
  shape := h.shape.2
  first := h.first
  rooms := h.rooms
  bound := h.bound
  scanned key count hrow hq hd := by
    have hdone : listening = done := h.shape.1.trans (List.append_nil done)
    exact h.scanned key count hrow (hdone ▸ hq) hd

theorem Armed.answer {phase : Phase}
    (h : Armed shortRoomid s ⟨user, device, since, delta, rooms, listening, phase, notified⟩) :
    Armed shortRoomid s ⟨user, device, since, delta, rooms, listening, .answered, notified⟩ where
  known := h.known
  shape := trivial
  first := h.first
  rooms := h.rooms
  bound b hb := by cases hb
  scanned key count _ hq _ := by
    obtain ⟨q, hq, -⟩ := hq
    cases hq

end

/-! ## Runs -/

structure Inv (shortRoomid : Bytes → Option Bytes) (s : World) : Prop where
  rows_le : ∀ key count, s.rows.lookup key = some count → count ≤ s.counter
  armed : ∀ r ∈ s.requests, Armed shortRoomid s r

theorem inv_new : Inv shortRoomid .new :=
  ⟨fun key count h => (by rw [World.new, AList.lookup_empty] at h; cases h), fun r hr => absurd hr List.not_mem_nil⟩

theorem Inv.setRequest (h : Inv shortRoomid s) {i : Nat} {r r' : Request} (hi : s.requests[i]? = some r)
    {known : List Watch} (hk : ∀ p ∈ s.known, p ∈ known) (hr' : Armed shortRoomid { s with known := known } r') :
    Inv shortRoomid { s.setRequest i r' with known := known } := by
  have hmove : ∀ {x : Request}, Armed shortRoomid { s with known := known } x →
      Armed shortRoomid { s.setRequest i r' with known := known } x := fun {x} hx =>
    hx.keep rfl (fun _ hp => hp) id
  refine ⟨h.rows_le, fun x hx => ?_⟩
  rcases mem_set_of_some hi hx with rfl | ⟨j, -, hj⟩
  · exact hmove hr'
  · have hold := h.armed x (List.mem_of_getElem? hj)
    exact hmove (hold.keep rfl hk id)

theorem Inv.step {a : Action} (h : Inv shortRoomid s) (hs : step shortRoomid a s = some s') : Inv
    shortRoomid s' := by
  have hkeep : ∀ {i : Nat} {r r' : Request}, s.requests[i]? = some r →
      (Armed shortRoomid s r → Armed shortRoomid s r') → Inv shortRoomid (s.setRequest i r') :=
        fun {i r r'} hi hr =>
    h.setRequest hi (fun _ hp => hp) (hr (h.armed r (List.mem_of_getElem? hi)))
  cases a with
  | draw diff =>
    simp only [Watchers.step] at hs
    split at hs
    · cases hs
      refine ⟨fun key count hrow => (h.rows_le key count hrow).trans (Nat.le_add_right _ _), fun r hr => ?_⟩
      exact (h.armed r hr).keep rfl (fun _ hp => hp) id
    · cases hs
  | commit ops =>
    simp only [Watchers.step] at hs
    split at hs
    · rename_i hops
      cases hs
      refine ⟨fun key count hrow => ?_, fun r hr => (h.armed r hr).commit⟩
      rcases lookup_applyOps hrow with hrow | hmem
      · exact h.rows_le key count hrow
      · have hop := List.all_eq_true.mp hops _ hmem
        simpa using hop
    · cases hs
  | lookup j =>
    simp only [Watchers.step] at hs
    split at hs
    · rename_i key keys hj
      cases hs
      refine ⟨h.rows_le, fun r hr => ?_⟩
      have hold := h.armed r hr
      exact hold.keep rfl (fun _ hp => hp) fun ha => ha.lookup hj hold.known
    · cases hs
  | notify j =>
    simp only [Watchers.step] at hs
    split at hs
    · rename_i keys p ps hj
      cases hs
      refine ⟨h.rows_le, fun r hr => ?_⟩
      obtain ⟨r₀, hr₀, rfl⟩ := List.mem_map.mp hr
      refine (h.armed r₀ hr₀).mono _ ?_ (fun _ hp => ?_) _ fun ha => ha.notify hj rfl
      · rfl
      · exact hp
    · cases hs
  | request user device since delta =>
    cases hs
    refine ⟨h.rows_le, fun r hr => ?_⟩
    rcases List.mem_append.mp hr with hr | hr
    · exact (h.armed r hr).keep rfl (fun _ hp => hp) id
    · rw [List.mem_singleton.mp hr]
      exact armed_start _ user device since delta
  | register i =>
    simp only [Watchers.step] at hs
    split at hs
    · rename_i hi
      cases hs
      exact h.setRequest hi (fun _ hp => List.mem_cons_of_mem _ hp) (h.armed _ (List.mem_of_getElem? hi)).register
    · cases hs
  | listen i =>
    simp only [Watchers.step] at hs
    split at hs
    · rename_i hi
      cases hs
      exact hkeep hi Armed.listen
    · cases hs
  | readRooms i =>
    simp only [Watchers.step] at hs
    split at hs
    · rename_i hi
      cases hs
      exact hkeep hi Armed.readRooms
    · cases hs
  | bound i =>
    simp only [Watchers.step] at hs
    split at hs
    · rename_i hi
      cases hs
      exact hkeep hi fun hr => hr.bounds rfl h.rows_le
    · cases hs
  | scan i =>
    simp only [Watchers.step] at hs
    split at hs
    · rename_i user device since delta rooms listening b done p todo notified hi
      cases hs
      refine hkeep hi fun hr => ?_
      split
      · exact hr.answer
      · rename_i hfound
        refine hr.scan fun key count hrow hcov hd hlt hle => hfound (List.any_eq_true.mpr ?_)
        exact ⟨⟨key, count⟩, AList.mem_entries_iff.mpr hrow, by simp [hcov, hlt, hle, hd]⟩
    · rename_i hi
      cases hs
      exact hkeep hi Armed.sleep
    · cases hs
  | wake i =>
    simp only [Watchers.step] at hs
    split at hs
    · rename_i user device since delta rooms listening b hi
      cases hs
      exact hkeep hi fun _ => armed_start s user device since delta
    · cases hs
  | deadline i =>
    simp only [Watchers.step] at hs
    split at hs
    · rename_i hi
      cases hs
      exact hkeep hi Armed.answer
    · cases hs

/-- While a request sleeps, a row past its token that it has to tell, under any prefix that
concerns its user, rooms joined meanwhile included, has notified it or has a writer that is
about to. -/
theorem no_lost_wakeup (h : Reaches (step shortRoomid) (fun _ _ => True) .new s) (hr : r ∈ s.requests) {b : Nat}
    (hasleep : r.phase = .asleep b) {key : Watch} {count : Nat} (hrow : s.rows.lookup key = some count)
    (hlt : r.since < count) (hdelta : r.delta key count = true) {p : Watch}
    (hp : p ∈ watches shortRoomid r.user r.device (roomsJoined s.rows r.user))
    (hcov : p.covers key = true) : Alarm s r := by
  have hinv : Inv shortRoomid s := h.invariant inv_new fun _ _ _ hinv _ hs => hinv.step hs
  have harmed := hinv.armed r hr
  have hfresh : p ∈ r.listening → Alarm s r := by
    intro hmem
    refine (harmed.scanned key count hrow ⟨p, ?_, hcov⟩ hdelta).resolve_left (Nat.not_le.mpr hlt)
    rw [hasleep]
    exact hmem
  have hshape := harmed.shape
  rw [Shaped, hasleep] at hshape
  obtain ⟨rooms, hrooms, hlisten⟩ := hshape
  rw [hlisten] at hfresh
  simp only [watches, List.mem_append, List.mem_flatMap] at hp hfresh
  rcases hp with hown | ⟨room, hjoined, hroom⟩ | hlast
  · exact hfresh (.inl hown)
  · rcases harmed.rooms rooms hrooms room hjoined with hmem | halarm
    · exact hfresh (.inr (.inl ⟨room, hmem, hroom⟩))
    · exact halarm
  · exact hfresh (.inr (.inr hlast))

/-- The watches of a request in a room, one call after the other. -/
def arm (i n : Nat) : List Action := (List.replicate n [.register i, .listen i]).flatten

/-- A room is joined while the watchers are being armed; then the request sleeps, and a change
of keys in that room commits. -/
theorem no_lost_wakeup_joined : ∃ s,
    runWhile (step fun _ => some [9]) (fun _ _ => True)
      ([.request [1] [2] 0 fun _ _ => true] ++ arm 0 7 ++
        [.readRooms 0, .draw 1, .commit [((.userroomidJoined, [1, sep, 7]), some 0)]] ++ arm 0 5 ++
        [.bound 0] ++ List.replicate 13 (.scan 0) ++ [.commit [((.keychangeidUserid, [7, sep]), some 1)]])
      .new = some s ∧ ∀ r, s.requests[0]? = some r → Alarm s r := by
  refine exists_of_map (fun s => ((s.requests[0]?).all fun r =>
      r.user = [1] && r.device = [2] && r.since = 0 && r.delta (.keychangeidUserid, [7, sep]) 1 &&
        r.phase = .asleep 1,
    s.rows.lookup (.keychangeidUserid, [7, sep]), roomsJoined s.rows [1]))
    (v := (true, some 1, [[7]])) (by decide) fun s hs heq r hr => ?_
  simp only [Prod.mk.injEq, hr, Option.all_some, Bool.and_eq_true, decide_eq_true_eq] at heq
  obtain ⟨⟨⟨⟨⟨huser, hdevice⟩, hsince⟩, hdelta⟩, hphase⟩, hrow, hjoined⟩ := heq
  refine no_lost_wakeup (.of_runWhile _ .init hs) (List.mem_of_getElem? hr) hphase hrow (hsince ▸ by decide) hdelta
    (p := (.keychangeidUserid, [7, sep])) ?_ (by decide)
  rw [huser, hdevice, hjoined]
  decide

end Congruent.Watchers
