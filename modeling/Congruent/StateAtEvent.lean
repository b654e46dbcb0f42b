import Congruent.Converge
import Congruent.Federation
import Congruent.Replay

/-!
# The state at an event

What is stored as the state after an event is made from the states after its
predecessors and, for a state event, from the room's current state when it is upgraded.
When any two state events are related, the order of delivery does not matter.
-/

namespace Congruent

open H
open Call (Ensures Keeps)

/-- What an event is handed to `upgrade_outlier_to_timeline_pdu` with. -/
structure Delivery where
  n : Nat
  call : Nat
  pdu : Pdu
  json : Object
  create : Pdu
  origin : ServerName
  isTimelineEvent : Bool
  predecessorsRecovered : Bool
  anchor : Option EventId

namespace Delivery

def id (d : Delivery) : EventId := d.pdu.eventId

def prevEvents (d : Delivery) : List EventId := d.pdu.prevEvents

def resolves (d : Delivery) : Bool := d.pdu.stateKey.isSome || (d.isTimelineEvent && d.predecessorsRecovered)

def upgrade (plat : Platform) (room : RoomId) (d : Delivery) : H (Option Nat × Bool) :=
  upgradeOutlierToTimelinePdu plat d.n d.call d.pdu d.json d.create d.origin room d.isTimelineEvent
    d.predecessorsRecovered d.anchor

end Delivery

section
variable (plat : Platform) (room : RoomId)

/-- The server after some events have been delivered, one after the other. -/
def deliverAll (ds : List Delivery) (s : Server) : Server :=
  ds.foldl (fun s d => ((d.upgrade plat room).exec s).2) s

/-- A condition on every delivery of a run and the state it starts from. -/
def Along (C : Delivery → Server → Prop) : List Delivery → Server → Prop
  | [], _ => True
  | d :: ds, s => C d s ∧ Along C ds ((d.upgrade plat room).exec s).2

/-- The event is neither rejected nor soft-failed. -/
def Accepts (d : Delivery) (s : Server) : Prop := ∃ r, ((d.upgrade plat room).exec s).1 = .ok r

def ForksClear (d : Delivery) (s : Server) : Prop :=
  ∀ p ∈ d.prevEvents, ∀ q ∈ d.prevEvents, ∀ root root' pdu pdu', s.eventRoot p = some root →
    s.eventRoot q = some root' →
    s.getPduInRoom plat room p = some pdu → s.getPduInRoom plat room q = some pdu' → SameMap root root' →
    SameMap (stateAtIncomingFork root pdu) (stateAtIncomingFork root' pdu')

/-- An outlier of the room, handed over as it is stored. -/
structure StoredOutlier (s : Server) (d : Delivery) : Prop where
  json : s.eventidPdu d.id = some d.json
  pdu : s.getPduInRoom plat room d.id = some d.pdu
  fresh : s.getPduId d.id = none
  unmarked : s.rejection d.id = none

/-- State resolution is of a set of states, and leaves alone what they agree on; and the
decoder does not read `unsigned`. -/
structure Resolves : Prop where
  sets : ∀ v view (ms ms' : List Root), (∀ m ∈ ms, ∃ m' ∈ ms', SameMap m m') →
    (∀ m' ∈ ms', ∃ m ∈ ms, SameMap m m') →
    SameMap (plat.resolveStateMaps v ms view) (plat.resolveStateMaps v ms' view)
  agreed : ∀ v view (ms : List Root) (m : Root), ms ≠ [] → (∀ a ∈ ms, SameMap a m) →
    SameMap (plat.resolveStateMaps v ms view) m
  decode : ∀ (json unsigned : Object), ((json.get "unsigned").getD (.obj [])).asObject.isSome →
    plat.decodePdu (json.insert "unsigned" (.obj unsigned)) = plat.decodePdu json

end

/-! ## States as maps -/

theorem SameMap.symm {m m' : Root} (h : SameMap m m') : SameMap m' m := fun k => (h k).symm

theorem SameMap.trans {a b c : Root} (h : SameMap a b) (h' : SameMap b c) : SameMap a c :=
  fun k => (h k).trans (h' k)

theorem Root.same_iff (a b : Root) : a.same b = true ↔ SameMap a b := by
  unfold Root.same SameMap
  simp only [Bool.and_eq_true, List.all_eq_true, decide_eq_true_eq]
  constructor
  · rintro ⟨ha, hb⟩ k
    by_cases hk : k ∈ a
    · exact ha k hk
    · by_cases hk' : k ∈ b
      · exact hb k hk'
      · rw [AList.lookup_eq_none.mpr hk, AList.lookup_eq_none.mpr hk']
  · exact fun h => ⟨fun k _ => h k, fun k _ => h k⟩

theorem stateAtIncomingFork_same {a b : Root} (h : SameMap a b) (pdu : Pdu) :
    SameMap (stateAtIncomingFork a pdu) (stateAtIncomingFork b pdu) := by
  unfold stateAtIncomingFork
  split
  · exact h.insert _ _
  · exact h

section
variable (plat : Platform) (v : RoomVersionId) (view : EventId → Option Pdu)

/-- What `state_resolution` answers. -/
def resolved : List Root → Root
  | [] => ∅
  | [m] => m
  | m :: m' :: ms => plat.resolveStateMaps v (m :: m' :: ms) view

variable {plat v view} {room : RoomId} {s s' : Server}

theorem resolved_agreed (hR : Resolves plat) {ms : List Root} {m : Root} (hne : ms ≠ [])
    (h : ∀ a ∈ ms, SameMap a m) :
    SameMap (resolved plat v view ms) m := by
  unfold resolved
  split
  · exact absurd rfl hne
  · exact h _ (by simp)
  · exact hR.agreed v view _ m hne h

theorem resolved_same (hR : Resolves plat) {ms ms' : List Root} (h : ∀ m ∈ ms, ∃ m' ∈ ms', SameMap m m')
    (h' : ∀ m' ∈ ms', ∃ m ∈ ms, SameMap m m') : SameMap (resolved plat v view ms) (resolved plat v view ms') := by
  match ms, ms' with
  | [], [] => exact .refl _
  | [], m' :: ms' =>
    obtain ⟨m, hm, -⟩ := h' m' (by simp)
    cases hm
  | m :: ms, [] =>
    obtain ⟨m', hm', -⟩ := h m (by simp)
    cases hm'
  | [m], m' :: ms' =>
    refine SameMap.symm (resolved_agreed hR (by simp) fun a ha => ?_)
    obtain ⟨b, hb, hab⟩ := h' a ha
    rw [List.mem_singleton.mp hb] at hab
    exact hab.symm
  | m₁ :: m₂ :: ms, [m'] =>
    refine resolved_agreed hR (by simp) fun a ha => ?_
    obtain ⟨b, hb, hab⟩ := h a ha
    rwa [List.mem_singleton.mp hb] at hab
  | m₁ :: m₂ :: ms, m₁' :: m₂' :: ms' => exact hR.sets v view _ _ h h'

theorem stateResolution_exec (ms : List Root) :
    ((stateResolution plat room v ms).exec s).1 = .ok (resolved plat v (s.resView plat room) ms) := by
  unfold stateResolution resolved
  split <;> rfl

theorem resolveState_exec {incoming root : Root} (h : (resolveState plat room v incoming).exec s = (.ok root, s')) :
    ∃ current, s.roomRoot room = some current ∧ root = resolved plat v (s.resView plat room)
      [current, incoming] := by
  unfold resolveState at h
  rw [exec_read] at h
  obtain ⟨current, s₁, h₁, h⟩ := Call.exec_bind_ok h
  cases hc : s.roomRoot room with
  | none =>
    rw [hc] at h₁
    cases h₁
  | some c =>
    rw [hc] at h₁
    cases h₁
    have hans : ((stateResolution plat room v [current, incoming]).exec s).1 = _ := stateResolution_exec _
    rw [h] at hans
    exact ⟨current, rfl, Except.ok.inj hans⟩

end

/-! ## The state before an event -/

section
variable (plat : Platform) (room : RoomId) (s : Server) (roots : EventId → Option Root)

def forkAfter (p : EventId) : Root :=
  match s.getPduInRoom plat room p, roots p with
  | some pdu, some root => stateAtIncomingFork root pdu
  | _, _ => ∅

def stateBefore (v : RoomVersionId) (prevs : List EventId) : Root :=
  resolved plat v (s.resView plat room) (prevs.map (forkAfter plat room s roots))

end

section
variable {plat : Platform} {room : RoomId} {s s' : Server}

theorem getPduInRoom_eventId {id : EventId} {pdu : Pdu} (h : s.getPduInRoom plat room id = some pdu) :
    pdu.eventId = id := by
  unfold Server.getPduInRoom at h
  exact getPdu_eventId (Option.eq_some_of_filter_eq_some h)

theorem forkAfter_eq {roots : EventId → Option Root} {p : EventId} {pdu : Pdu} {root : Root}
    (hp : s.getPduInRoom plat room p = some pdu) (hr : roots p = some root) :
    forkAfter plat room s roots p = stateAtIncomingFork root pdu := by
  unfold forkAfter
  rw [hp, hr]

/-- The forks so far: each is of a predecessor, and each predecessor's root is there. -/
structure ForksOf (plat : Platform) (room : RoomId) (s : Server) (ps : List EventId) (forks : List (Root × Pdu)) :
    Prop where
  of : ∀ f ∈ forks, ∃ p ∈ ps, ∃ root, s.getPduInRoom plat room p = some f.2 ∧ s.eventRoot p = some root ∧
    SameMap f.1 root
  all : ∀ p ∈ ps, ∃ f ∈ forks, ∃ root, s.eventRoot p = some root ∧ SameMap f.1 root

theorem putFork_of {ps : List EventId} {forks : List (Root × Pdu)} {p : EventId} {pdu : Pdu} {root : Root}
    (h : ForksOf plat room s ps forks) (hp : s.getPduInRoom plat room p = some pdu)
    (hr : s.eventRoot p = some root) :
    ForksOf plat room s (p :: ps) (putFork forks root pdu) := by
  unfold putFork
  split
  · rename_i hany
    obtain ⟨f₀, hf₀, hsame₀⟩ := List.any_eq_true.mp hany
    constructor
    · intro f hf
      obtain ⟨g, hg, rfl⟩ := List.mem_map.mp hf
      by_cases hsame : g.1.same root = true
      · rw [if_pos hsame]
        exact ⟨p, by simp, root, hp, hr, (Root.same_iff _ _).mp hsame⟩
      · rw [if_neg hsame]
        obtain ⟨q, hq, rest⟩ := h.of g hg
        exact ⟨q, by simp [hq], rest⟩
    · -- replacing the event of a fork leaves its root
      have hkept : ∀ g ∈ forks, ∃ f ∈ forks.map (fun f => if f.1.same root then (f.1, pdu) else f), f.1 = g.1 := by
        intro g hg
        refine ⟨_, List.mem_map_of_mem hg, ?_⟩
        split <;> rfl
      intro q hq
      rcases List.mem_cons.mp hq with rfl | hq
      · obtain ⟨f, hf, hfg⟩ := hkept f₀ hf₀
        exact ⟨f, hf, root, hr, hfg ▸ (Root.same_iff _ _).mp hsame₀⟩
      · obtain ⟨g, hg, root', hr', hsame⟩ := h.all q hq
        obtain ⟨f, hf, hfg⟩ := hkept g hg
        exact ⟨f, hf, root', hr', hfg ▸ hsame⟩
  · constructor
    · intro f hf
      rcases List.mem_append.mp hf with hf | hf
      · obtain ⟨q, hq, rest⟩ := h.of f hf
        exact ⟨q, by simp [hq], rest⟩
      · rw [List.mem_singleton.mp hf]
        exact ⟨p, by simp, root, hp, hr, .refl _⟩
    · intro q hq
      rcases List.mem_cons.mp hq with rfl | hq
      · exact ⟨(root, pdu), by simp, root, hr, .refl _⟩
      · obtain ⟨g, hg, rest⟩ := h.all q hq
        exact ⟨g, by simp [hg], rest⟩

theorem extremityRoots_forks : ∀ (ps done : List EventId) (forks forks' : List (Root × Pdu)),
    ForksOf plat room s done forks → s.extremityRoots plat room ps forks = some forks' →
    ∃ seen, ForksOf plat room s seen forks' ∧ ∀ p, p ∈ seen ↔ p ∈ ps ∨ p ∈ done
  | [], done, forks, forks', hf, h => by
    cases h
    exact ⟨done, hf, by simp⟩
  | p :: ps, done, forks, forks', hf, h => by
    unfold Server.extremityRoots at h
    split at h
    · rename_i pdu root hp hr
      split at h
      · obtain ⟨seen, hseen, hmem⟩ := extremityRoots_forks ps (p :: done) _ _ (putFork_of hf hp hr) h
        refine ⟨seen, hseen, fun q => ?_⟩
        rw [hmem, List.mem_cons, List.mem_cons]
        tauto
      · cases h
    · cases h

theorem mem_reorder {A : Type} {xs : List A} {order : List Nat} (ho : order.Perm (List.range xs.length)) (x : A) :
    x ∈ reorder xs order ↔ x ∈ xs := by
  unfold reorder
  rw [List.mem_filterMap, List.mem_iff_getElem?]
  constructor
  · rintro ⟨i, _, hi⟩
    exact ⟨i, hi⟩
  · rintro ⟨i, hi⟩
    refine ⟨i, ?_, hi⟩
    rw [ho.mem_iff, List.mem_range]
    exact (List.getElem?_eq_some_iff.mp hi).1

theorem forks_resolved (hR : Resolves plat) {d : Delivery} (hc : ForksClear plat room d s) {v : RoomVersionId}
    {forks : List (Root × Pdu)} {seen : List EventId} (hf : ForksOf plat room s seen forks)
    (hseen : ∀ p, p ∈ seen ↔ p ∈ d.prevEvents) (hpdu : ∀ p ∈ d.prevEvents, (s.getPduInRoom plat room p).isSome) :
    SameMap (resolved plat v (s.resView plat room) (forks.map fun f => stateAtIncomingFork f.1 f.2))
      (stateBefore plat room s s.eventRoot v d.prevEvents) := by
  refine resolved_same hR (fun m hm => ?_) fun m' hm' => ?_
  · obtain ⟨f, hfm, rfl⟩ := List.mem_map.mp hm
    obtain ⟨p, hp, root, hpf, hr, hsame⟩ := hf.of f hfm
    refine ⟨_, List.mem_map_of_mem ((hseen p).mp hp), ?_⟩
    rw [forkAfter_eq hpf hr]
    exact stateAtIncomingFork_same hsame _
  · obtain ⟨p, hp, rfl⟩ := List.mem_map.mp hm'
    obtain ⟨f, hfm, root, hr, hsame⟩ := hf.all p ((hseen p).mpr hp)
    obtain ⟨q, hq, root', hqf, hr', hsame'⟩ := hf.of f hfm
    obtain ⟨pdu, hpdu⟩ := Option.isSome_iff_exists.mp (hpdu p hp)
    refine ⟨_, List.mem_map_of_mem hfm, ?_⟩
    rw [forkAfter_eq hpdu hr]
    have hqp : SameMap root' root := hsame'.symm.trans hsame
    exact (stateAtIncomingFork_same hsame' _).trans
      (hc q ((hseen q).mp hq) p hp root' root f.2 pdu hr' hr hqf hpdu hqp)

section
variable {d : Delivery} {v : RoomVersionId} {root : Root}

theorem degreeOne_exec {n : Nat} {p : EventId} (hroot : (s.eventRoot p).isSome)
    (h : (stateAtIncomingDegreeOne plat n room p).exec s = (.ok (some root), s')) :
    root = forkAfter plat room s s.eventRoot p := by
  obtain ⟨r, hr⟩ := Option.isSome_iff_exists.mp hroot
  unfold stateAtIncomingDegreeOne at h
  rw [exec_read] at h
  cases hp : s.getPduInRoom plat room p with
  | none =>
    rw [hp] at h
    cases h
  | some pdu =>
    rw [hp] at h
    simp only at h
    split at h
    · cases h
    · cases n with
      | zero => cases h
      | succ n =>
        unfold walkBack at h
        obtain ⟨found, s₁, h₁, h⟩ := Call.exec_bind_ok h
        rw [exec_read, hr] at h₁
        cases h₁
        cases h
        rw [forkAfter_eq hp hr]

theorem mem_extremityRoots : ∀ (ps : List EventId) {forks forks' : List (Root × Pdu)},
    s.extremityRoots plat room ps forks = some forks' → ∀ p ∈ ps, (s.getPduInRoom plat room p).isSome
  | [], _, _, _ => by simp
  | q :: ps, forks, forks', h => by
    unfold Server.extremityRoots at h
    split at h
    · rename_i pdu root hp hr
      split at h
      · intro p hm
        rcases List.mem_cons.mp hm with rfl | hm
        · simp [hp]
        · exact mem_extremityRoots ps h p hm
      · cases h
    · cases h

theorem resolvedState_exec (hR : Resolves plat) (hc : ForksClear plat room d s)
    (ho : ∀ t n, ((s.world t).order n).Perm (List.range n))
    (h : (stateAtIncomingResolved plat room v d.prevEvents).exec s = (.ok (some root), s')) :
    SameMap root (stateBefore plat room s s.eventRoot v d.prevEvents) := by
  unfold stateAtIncomingResolved at h
  rw [exec_ask, exec_read] at h
  split at h
  · cases h
  · rename_i forks hforks
    obtain ⟨state, s₁, h₁, h⟩ := Call.exec_bind_ok h
    cases h
    have hans : ((stateResolution plat room v (forks.map fun f => stateAtIncomingFork f.1 f.2)).exec
        (Write.tick.apply plat s)).1 = _ := stateResolution_exec _
    rw [h₁] at hans
    cases hans
    have hmem : ∀ p, p ∈ reorder d.prevEvents ((s.world s.clock).order d.prevEvents.length) ↔ p ∈ d.prevEvents :=
      mem_reorder (ho _ _)
    have hnone : ForksOf plat room (Write.tick.apply plat s) [] [] := ⟨by simp, by simp⟩
    obtain ⟨seen, hf, hseen⟩ := extremityRoots_forks _ [] [] forks hnone hforks
    have hclear : ForksClear plat room d (Write.tick.apply plat s) := hc
    refine forks_resolved hR hclear hf (fun p => ?_) fun p hp => mem_extremityRoots _ hforks p ((hmem p).mpr hp)
    rw [hseen, hmem]
    simp

theorem predecessorState_exec (hR : Resolves plat) (hc : ForksClear plat room d s)
    (ho : ∀ t n, ((s.world t).order n).Perm (List.range n)) (hroots : ∀ p ∈ d.prevEvents, (s.eventRoot p).isSome)
    {n : Nat} (h : (predecessorState plat n room v d.prevEvents).exec s = (.ok (some root), s')) :
    SameMap root (stateBefore plat room s s.eventRoot v d.prevEvents) := by
  unfold predecessorState at h
  split at h
  · rename_i p hp
    rw [hp] at hroots ⊢
    rw [degreeOne_exec (hroots p (by simp)) h]
    exact .refl _
  · exact resolvedState_exec hR hc ho h

end

/-! ## Silent peers -/

theorem askStateIds_silent (id : EventId) : ∀ (servers : List ServerName) {s : Server},
    (∀ t server id, (s.world t).stateIds server room id = none) →
    ∃ e, (askStateIds plat room id servers).exec s = (.error e, { s with clock := s.clock + servers.length })
  | [], s, _ => ⟨_, rfl⟩
  | server :: servers, s, hq => by
    unfold askStateIds
    rw [exec_ask, hq]
    obtain ⟨e, he⟩ := askStateIds_silent id servers (s := Write.tick.apply plat s) hq
    refine ⟨e, ?_⟩
    simp only
    rw [he]
    simp only [Write.apply, List.length_cons, Nat.add_assoc, Nat.add_comm 1]

theorem fetchState_silent (hq : ∀ t server id, (s.world t).stateIds server room id = none) (n : Nat)
    (origin : ServerName) (create : Pdu) (id : EventId) (skip : Bool) :
    ∃ e k, (fetchState plat n origin create room id skip).exec s = (.error e, { s with clock := s.clock + k }) := by
  unfold fetchState
  rw [exec_ask]
  obtain ⟨e, he⟩ := askStateIds_silent id ((s.world s.clock).serverPool room origin)
    (s := Write.tick.apply plat s) hq
  refine ⟨e, 1 + ((s.world s.clock).serverPool room origin).length, ?_⟩
  rw [Call.exec_bind, he]
  simp only [Write.apply, Nat.add_assoc]

/-- The stores that decide about the state are left alone. -/
structure Calm (plat : Platform) (room : RoomId) (s s' : Server) : Prop where
  pdus : s'.eventidPdu = s.eventidPdu
  metadata : s'.eventidMetadata = s.eventidMetadata
  roots : s'.eventRoot = s.eventRoot
  current : s'.roomRoot = s.roomRoot
  world : s'.world = s.world
  view : s'.resView plat room = s.resView plat room
  unmarked : ∀ id, s.rejection id = none → s'.rejection id = none

theorem Calm.refl (s : Server) : Calm plat room s s := ⟨rfl, rfl, rfl, rfl, rfl, rfl, fun _ h => h⟩

theorem Calm.trans {a b c : Server} (h : Calm plat room a b) (h' : Calm plat room b c) : Calm plat room a c where
  pdus := h'.pdus.trans h.pdus
  metadata := h'.metadata.trans h.metadata
  roots := h'.roots.trans h.roots
  current := h'.current.trans h.current
  world := h'.world.trans h.world
  view := h'.view.trans h.view
  unmarked id hid := h'.unmarked id (h.unmarked id hid)

theorem resView_congr {id : EventId} (hp : s'.getPduInRoom plat room id = s.getPduInRoom plat room id)
    (hf : (s'.isEventRejected id && !s'.stale id) = (s.isEventRejected id && !s.stale id)) :
    s'.resView plat room id = s.resView plat room id := by
  unfold Server.resView
  rw [hp, hf]

theorem Calm.allows : Allows plat (Calm plat room) where
  tick s := ⟨rfl, rfl, rfl, rfl, rfl, rfl, fun _ h => h⟩
  clear s x h := by
    have hne : ∀ id, id ≠ x → ((Write.clearStale x).apply plat s).rejection id = s.rejection id :=
      fun id hx => Function.update_of_ne hx _ _
    have hx : ((Write.clearStale x).apply plat s).rejection x = none := Function.update_self _ _ _
    refine ⟨rfl, rfl, rfl, rfl, rfl, funext fun id => resView_congr rfl ?_, fun id hid => ?_⟩
    · by_cases hid : id = x
      · -- a stale rejection counts as none, and then it is none
        rw [hid, h]
        unfold Server.isEventRejected
        rw [hx]
        simp
      · have hsame : ((Write.clearStale x).apply plat s).stale id = s.stale id := by
          unfold Server.stale Server.isEventRejected
          rw [hne id hid]
          rfl
        unfold Server.isEventRejected
        rw [hsame, hne id hid]
    · by_cases hidx : id = x
      · rw [hidx, hx]
      · rw [hne id hidx, hid]

theorem Calm.of_keeps {A : Type} {p : H A} {r : Except HErr A} (h : Keeps (Calm plat room) p s)
    (he : p.exec s = (r, s')) : Calm plat room s s' := by
  have hpath : Relation.ReflTransGen (Calm plat room) s s' := by
    have hsolo := h.solo.1
    rwa [he] at hsolo
  clear h he
  induction hpath with
  | refl => exact .refl s
  | tail _ hst ih => exact ih.trans hst

/-! ## The state after an event -/

theorem anchoredStateAt_silent (hq : ∀ t server id, (s.world t).stateIds server room id = none) (n : Nat)
    (origin : ServerName) (create : Pdu) (v : RoomVersionId) (pdu : Pdu) (anchor : Option EventId) :
    ∃ k, (anchoredStateAt plat n origin create room v pdu anchor).exec s =
      (.ok none, { s with clock := s.clock + k }) := by
  unfold anchoredStateAt
  split
  · exact ⟨0, rfl⟩
  · rename_i id
    obtain ⟨e, k, he⟩ := fetchState_silent hq n origin create id false
    refine ⟨k, ?_⟩
    rw [Call.exec_bind, Call.exec_attempt, he]
    rfl

theorem localStateAt_exec {n : Nat} {v : RoomVersionId} {pdu : Pdu} {root : Root}
    (h : (localStateAt plat n room v pdu).exec s = (.ok (some root), s')) :
    ∃ s₁, (predecessorState plat n room v pdu.prevEvents).exec s = (.ok (some root), s₁) := by
  unfold localStateAt at h
  obtain ⟨state, s₁, h₁, h⟩ := Call.exec_bind_ok h
  cases state with
  | none => cases h
  | some reused =>
    obtain ⟨lacks, s₂, h₂, h⟩ := Call.exec_bind_ok h
    split at h
    · cases h
    · cases h
      exact ⟨s₁, h₁⟩

theorem stateAtIncoming_exec (hq : ∀ t server id, (s.world t).stateIds server room id = none) {n : Nat}
    {origin : ServerName} {create : Pdu} {v : RoomVersionId} {pdu : Pdu} {anchor : Option EventId} {root : Root}
    {recovered : Bool}
    (h : (stateAtIncoming plat n origin create room v pdu anchor).exec s = (.ok (root, recovered), s')) :
    recovered = false ∧ Calm plat room s s' ∧
      ∃ s₁, (predecessorState plat n room v pdu.prevEvents).exec s = (.ok (some root), s₁) := by
  unfold stateAtIncoming at h
  obtain ⟨state, s₁, h₁, h⟩ := Call.exec_bind_ok h
  have hcalm : Calm plat room s s₁ := .of_keeps (localStateAt_keeps Calm.allows n pdu) h₁
  cases state with
  | some state =>
    cases h
    exact ⟨rfl, hcalm, localStateAt_exec h₁⟩
  | none =>
    have hq₁ : ∀ t server id, (s₁.world t).stateIds server room id = none := by
      rw [hcalm.world]
      exact hq
    obtain ⟨k, ha⟩ := anchoredStateAt_silent hq₁ n origin create v pdu anchor
    obtain ⟨fetched, s₂, h₂, -⟩ := Call.exec_bind_ok h
    unfold fetchStateAt at h₂
    rw [Call.exec_bind, ha] at h₂
    have hq₂ : ∀ t server id, (({ s₁ with clock := s₁.clock + k } : Server).world t).stateIds server
        room id = none := hq₁
    obtain ⟨e, k', he⟩ := fetchState_silent hq₂ n origin create pdu.eventId false
    simp only at h₂
    rw [he] at h₂
    cases h₂

end

section
variable (plat : Platform) (room : RoomId) (s : Server) (isPartial : Bool) (v : RoomVersionId)

def stateAfter (d : Delivery) (roots : EventId → Option Root) (current : Option Root) : Root :=
  let before := stateBefore plat room s roots v d.prevEvents
  match d.pdu.stateKey with
  | some key =>
    if isPartial then (current.getD ∅).insert (d.pdu.kind, key) d.id
    else resolved plat v (s.resView plat room) [current.getD ∅, before.insert (d.pdu.kind, key) d.id]
  | none =>
    if d.isTimelineEvent && d.predecessorsRecovered then
      resolved plat v (s.resView plat room) [current.getD ∅, before]
    else before

variable {plat room s isPartial v} {s' : Server} {d : Delivery} {roots roots' : EventId → Option Root}
  {current current' : Option Root}

theorem forkAfter_same {p : EventId} (h : Option.Rel SameMap (roots p) (roots' p)) :
    SameMap (forkAfter plat room s roots p) (forkAfter plat room s roots' p) := by
  unfold forkAfter
  generalize roots p = r at h
  generalize roots' p = r' at h
  cases h with
  | none => exact .refl _
  | some h =>
    cases s.getPduInRoom plat room p with
    | none => exact .refl _
    | some pdu => exact stateAtIncomingFork_same h pdu

theorem stateBefore_same (hR : Resolves plat) {prevs : List EventId}
    (h : ∀ p ∈ prevs, Option.Rel SameMap (roots p) (roots' p)) :
    SameMap (stateBefore plat room s roots v prevs) (stateBefore plat room s roots' v prevs) := by
  refine resolved_same hR (fun m hm => ?_) fun m hm => ?_
  · obtain ⟨p, hp, rfl⟩ := List.mem_map.mp hm
    exact ⟨_, List.mem_map_of_mem hp, forkAfter_same (h p hp)⟩
  · obtain ⟨p, hp, rfl⟩ := List.mem_map.mp hm
    exact ⟨_, List.mem_map_of_mem hp, forkAfter_same (h p hp)⟩

theorem resolved_pair_same (hR : Resolves plat) {view : EventId → Option Pdu} {a a' b b' : Root} (ha : SameMap a a')
    (hb : SameMap b b') : SameMap (resolved plat v view [a, b]) (resolved plat v view [a', b']) := by
  refine resolved_same hR ?_ ?_
  · simp [ha, hb]
  · simp [ha, hb]

theorem getD_same (h : Option.Rel SameMap current current') : SameMap (current.getD ∅) (current'.getD ∅) := by
  cases h with
  | none => exact .refl _
  | some h => exact h

theorem stateAfter_same (hR : Resolves plat) (h : ∀ p ∈ d.prevEvents, Option.Rel SameMap (roots p) (roots' p))
    (hc : d.resolves = true → Option.Rel SameMap current current') :
    SameMap (stateAfter plat room s isPartial v d roots current)
      (stateAfter plat room s isPartial v d roots' current') := by
  have hb : SameMap (stateBefore plat room s roots v d.prevEvents)
      (stateBefore plat room s roots' v d.prevEvents) :=
    stateBefore_same hR h
  unfold stateAfter
  unfold Delivery.resolves at hc
  cases hk : d.pdu.stateKey with
  | some key =>
    have hcur := getD_same (hc (by simp [hk]))
    simp only
    split
    · exact hcur.insert _ _
    · exact resolved_pair_same hR hcur (hb.insert _ _)
  | none =>
    simp only
    split
    · rename_i hr
      exact resolved_pair_same hR (getD_same (hc (by simp [hk, hr]))) hb
    · exact hb

theorem reusableRoot_same {pdu : Pdu} {root : Root} (h : s.reusableRoot plat room pdu = some root) :
    SameMap root (stateBefore plat room s s.eventRoot v pdu.prevEvents) := by
  unfold Server.reusableRoot at h
  split at h
  · rename_i prev hprev
    rw [hprev]
    show SameMap root (forkAfter plat room s s.eventRoot prev)
    split at h
    · rename_i prevPdu r hp hr
      rw [forkAfter_eq hp hr]
      unfold stateAtIncomingFork
      split at h
      · rename_i hkey
        cases h
        rw [hkey]
        exact .refl _
      · rename_i key hkey
        rw [hkey]
        split at h
        · rename_i found hfound
          split at h
          · rename_i hid
            cases h
            -- the predecessor's own entry is there already
            obtain ⟨x, hx, hf⟩ := Option.bind_eq_some_iff.mp hfound
            have hxp : x = prev := (getPduInRoom_eventId hf).symm.trans hid
            intro k
            by_cases hk : k = (prevPdu.kind, key)
            · rw [hk, AList.lookup_insert, hx, hxp, getPduInRoom_eventId hp]
            · rw [AList.lookup_insert_ne hk]
          · cases h
        · cases h
    · cases h
  · cases h

theorem newRoomState_exec (hR : Resolves plat) {stateAt root : Root} {prevRoot : Option Root}
    (hb : SameMap stateAt (stateBefore plat room s s.eventRoot v d.prevEvents))
    (h : (newRoomState plat room v d.pdu stateAt d.isTimelineEvent d.predecessorsRecovered isPartial).exec s =
      (.ok (prevRoot, root), s')) :
    SameMap root (stateAfter plat room s isPartial v d s.eventRoot (s.roomRoot room)) := by
  unfold newRoomState at h
  unfold stateAfter
  cases hk : d.pdu.stateKey with
  | some key =>
    simp only [hk] at h ⊢
    rw [exec_read, exec_read] at h
    split at h
    · rename_i current hcur
      cases h
      split at hcur
      · rename_i hpart
        rw [if_pos hpart, hcur]
        exact .refl _
      · cases hcur
    · rename_i hcur
      obtain ⟨r, s₁, h₁, h⟩ := Call.exec_bind_ok h
      cases h
      obtain ⟨current, hroom, rfl⟩ := resolveState_exec h₁
      have hpart : ¬ isPartial = true := by
        intro hpart
        rw [if_pos hpart, hroom] at hcur
        cases hcur
      rw [if_neg hpart, hroom]
      exact resolved_pair_same hR (.refl _) (hb.insert _ _)
  | none =>
    simp only [hk] at h ⊢
    split at h
    · rename_i hr
      rw [exec_read] at h
      obtain ⟨r, s₁, h₁, h⟩ := Call.exec_bind_ok h
      cases h
      obtain ⟨current, hroom, rfl⟩ := resolveState_exec h₁
      rw [if_pos hr, hroom]
      exact resolved_pair_same hR (.refl _) hb
    · rename_i hr
      rw [if_neg hr]
      split at h
      · rw [exec_read] at h
        cases h
        cases hreuse : s.reusableRoot plat room d.pdu with
        | none => exact hb
        | some r => exact reusableRoot_same hreuse
      · cases h
        exact hb

theorem stateAfter_eq (hp : s'.getPduInRoom plat room = s.getPduInRoom plat room)
    (hv : s'.resView plat room = s.resView plat room) :
    stateAfter plat room s' isPartial v d = stateAfter plat room s isPartial v d := by
  have hfork : forkAfter plat room s' = forkAfter plat room s := by
    unfold forkAfter
    rw [hp]
  have hbefore : stateBefore plat room s' = stateBefore plat room s := by
    unfold stateBefore
    rw [hfork, hv]
  unfold stateAfter
  rw [hbefore, hv]

theorem Calm.getPduInRoom (h : Calm plat room s s') : s'.getPduInRoom plat room = s.getPduInRoom plat room := by
  unfold Server.getPduInRoom Server.getPdu
  rw [h.pdus]

def Delivery.append (d : Delivery) (room : RoomId) (root : Root) (prevRoot : Option Root) : Append :=
  ⟨d.call, room, d.pdu, d.json, d.isTimelineEvent, root, prevRoot,
    d.isTimelineEvent && (d.pdu.stateKey.isSome || d.predecessorsRecovered)⟩

theorem upgradeLocked_exec (hR : Resolves plat) {stateAt : Root} {create : Pdu} {version : RoomVersion}
    {claimed : List Pdu} {r : Option Nat × Bool} (hnew : s.getPduId d.id = none)
    (hb : SameMap stateAt (stateBefore plat room s s.eventRoot v d.prevEvents))
    (h : (upgradeLocked plat d.call d.pdu d.json create room v version d.isTimelineEvent
      d.predecessorsRecovered false
      isPartial claimed stateAt).exec s = (.ok r, s')) :
    ∃ s₁ prevRoot root, Calm plat room s s₁ ∧
      SameMap root (stateAfter plat room s isPartial v d s.eventRoot (s.roomRoot room)) ∧
      s' = s₁.appendPdu plat (d.append room root prevRoot) := by
  unfold upgradeLocked at h
  rw [exec_read] at h
  unfold Delivery.id at hnew
  rw [hnew] at h
  simp only [Bool.false_or] at h
  obtain ⟨softFail, s₁, h₁, h⟩ := Call.exec_bind_ok h
  have hc₁ : Calm plat room s s₁ := .of_keeps (softFailCheck_keeps Calm.allows _ _ _ _ _ _) h₁
  obtain ⟨⟨prevRoot, root⟩, s₂, h₂, h⟩ := Call.exec_bind_ok h
  have hc₂ : Calm plat room s₁ s₂ := .of_keeps (newRoomState_keeps Calm.allows _ _ _ _ _) h₂
  have hroot : SameMap root (stateAfter plat room s isPartial v d s.eventRoot (s.roomRoot room)) := by
    have hb₁ : SameMap stateAt (stateBefore plat room s₁ s₁.eventRoot v d.prevEvents) := by
      unfold stateBefore forkAfter
      rw [hc₁.getPduInRoom, hc₁.view, hc₁.roots]
      exact hb
    have hafter := newRoomState_exec hR hb₁ h₂
    rwa [stateAfter_eq hc₁.getPduInRoom hc₁.view, hc₁.roots, hc₁.current] at hafter
  obtain ⟨failed, s₃, h₃, h⟩ := Call.exec_bind_ok h
  have hc₃ : Calm plat room s₂ s₃ := .of_keeps (laterSoftFail_keeps Calm.allows _ _) h₃
  split at h
  · obtain ⟨_, _, _, h⟩ := Call.exec_bind_ok h
    cases h
  · rw [exec_read] at h
    obtain ⟨_, s₄, h₄, h⟩ := Call.exec_bind_ok h
    have hc₄ : Calm plat room s₃ s₄ := .of_keeps Ensures.refuse.keeps h₄
    rw [exec_read] at h
    cases h
    exact ⟨s₄, prevRoot, root, ((hc₁.trans hc₂).trans hc₃).trans hc₄, hroot, rfl⟩

/-- No peer tells a state, whether the room is partly joined does not change, and what
comes in some order comes all. -/
structure Steady (room : RoomId) (isPartial : Bool) (s : Server) : Prop where
  silent : ∀ t server id, (s.world t).stateIds server room id = none
  partialServer : ∀ t, (s.world t).partialServer room = isPartial
  order : ∀ t n, ((s.world t).order n).Perm (List.range n)

theorem upgrade_exec (hR : Resolves plat) (hw : Steady room isPartial s) (hnew : s.getPduId d.id = none)
    (hroots : ∀ p ∈ d.prevEvents, (s.eventRoot p).isSome) (hclear : ForksClear plat room d s)
    {r : Option Nat × Bool}
    (h : (d.upgrade plat room).exec s = (.ok r, s')) :
    ∃ v s₁ prevRoot root, getRoomVersionId plat d.create = .ok v ∧ Calm plat room s s₁ ∧
      SameMap root (stateAfter plat room s isPartial v d s.eventRoot (s.roomRoot room)) ∧
      s' = s₁.appendPdu plat (d.append room root prevRoot) := by
  unfold Delivery.upgrade upgradeOutlierToTimelinePdu at h
  rw [exec_read] at h
  have hnew' : s.getPduId d.pdu.eventId = none := hnew
  rw [hnew'] at h
  simp only at h
  rw [exec_read] at h
  split at h
  · cases h
  · obtain ⟨v, s₁, h₁, h⟩ := Call.exec_bind_ok h
    obtain ⟨hv, hs₁⟩ := exec_lift h₁
    rw [hs₁] at h
    obtain ⟨⟨stateAt, wasRecovered⟩, s₂, h₂, h⟩ := Call.exec_bind_ok h
    obtain ⟨hrec, hc₂, s₀, h₀⟩ := stateAtIncoming_exec hw.silent h₂
    subst hrec
    have hb := predecessorState_exec hR hclear hw.order hroots h₀
    obtain ⟨version, s₃, h₃, h⟩ := Call.exec_bind_ok h
    have hc₃ : Calm plat room s₂ s₃ := .of_keeps (lift_keeps _) h₃
    unfold partialServer at h
    rw [exec_ask] at h
    have hpart : (s₃.world s₃.clock).partialServer room = isPartial := by
      rw [(hc₂.trans hc₃).world]
      exact hw.partialServer _
    rw [hpart, exec_read] at h
    obtain ⟨passes, s₄, h₄, h⟩ := Call.exec_bind_ok h
    have hc₄ : Calm plat room (Write.tick.apply plat s₃) s₄ := .of_keeps Ensures.ask h₄
    have hcalm : Calm plat room s s₄ := ((hc₂.trans hc₃).trans (Calm.allows.tick s₃)).trans hc₄
    split at h
    · obtain ⟨_, _, _, h⟩ := Call.exec_bind_ok h
      cases h
    · rw [Call.exec_atomic] at h
      have hnew₄ : s₄.getPduId d.id = none := by
        unfold Server.getPduId
        rw [hcalm.metadata]
        exact hnew
      have hb₄ : SameMap stateAt (stateBefore plat room s₄ s₄.eventRoot v d.prevEvents) := by
        unfold stateBefore forkAfter
        rw [hcalm.getPduInRoom, hcalm.view, hcalm.roots]
        exact hb
      obtain ⟨s₅, prevRoot, root, hc₅, hroot, hs'⟩ := upgradeLocked_exec hR hnew₄ hb₄ h
      rw [stateAfter_eq hcalm.getPduInRoom hcalm.view, hcalm.roots, hcalm.current] at hroot
      exact ⟨v, s₅, prevRoot, root, hv, hcalm.trans hc₅, hroot, hs'⟩

/-! ## Runs -/

/-- What stays the same while the room's outliers are upgraded. -/
structure Grounded (plat : Platform) (room : RoomId) (s₀ s : Server) : Prop where
  pdus : s.getPduInRoom plat room = s₀.getPduInRoom plat room
  view : s.resView plat room = s₀.resView plat room
  world : s.world = s₀.world
  unmarked : ∀ id, s₀.rejection id = none → s.rejection id = none

theorem Grounded.calm {s₀ : Server} (h : Grounded plat room s₀ s) (hc : Calm plat room s s') :
    Grounded plat room s₀ s' where
  pdus := hc.getPduInRoom.trans h.pdus
  view := hc.view.trans h.view
  world := hc.world.trans h.world
  unmarked id hid := hc.unmarked id (h.unmarked id hid)

theorem decode_withPrevState (hR : Resolves plat) (pdu : Pdu) (prev : Option Pdu) (json : Object) :
    plat.decodePdu (withPrevState pdu prev json) = plat.decodePdu json := by
  unfold withPrevState
  split
  · rename_i key unsigned _ hu
    exact hR.decode json _ (by simp [hu, Value.asObject])
  · rfl

theorem Grounded.append {s₀ : Server} (hR : Resolves plat) (h : Grounded plat room s₀ s)
    (hd : StoredOutlier plat room s₀ d) (root : Root) (prevRoot : Option Root) :
    Grounded plat room s₀ (s.appendPdu plat (d.append room root prevRoot)) := by
  have hpdu : ∀ id, (s.appendPdu plat (d.append room root prevRoot)).getPduInRoom plat room id =
      s.getPduInRoom plat room id := by
    intro id
    by_cases hid : id = d.id
    · subst hid
      rw [h.pdus]
      unfold Server.getPduInRoom Server.getPdu
      rw [hd.json]
      have hjson : (s.appendPdu plat (d.append room root prevRoot)).eventidPdu d.id =
          some (withPrevState d.pdu (s.prevState plat room d.pdu prevRoot) d.json) := Function.update_self _ _ _
      rw [hjson]
      simp only [Option.bind_some]
      rw [decode_withPrevState hR]
    · unfold Server.getPduInRoom Server.getPdu
      have hother : (s.appendPdu plat (d.append room root prevRoot)).eventidPdu id = s.eventidPdu id :=
        Function.update_of_ne hid _ _
      rw [hother]
  have hnone : (s.appendPdu plat (d.append room root prevRoot)).rejection d.id = none := Function.update_self _ _ _
  have hrej : ∀ id, (s.appendPdu plat (d.append room root prevRoot)).rejection id = s.rejection id := by
    intro id
    by_cases hid : id = d.id
    · rw [hid, hnone, h.unmarked _ hd.unmarked]
    · exact Function.update_of_ne hid _ _
  refine ⟨(funext hpdu).trans h.pdus, ?_, h.world, fun id hid => ?_⟩
  · rw [← h.view]
    refine funext fun id => resView_congr (hpdu id) ?_
    by_cases hid : id = d.id
    · unfold Server.isEventRejected
      rw [hrej, hid, h.unmarked _ hd.unmarked]
      rfl
    · have hmeta : (s.appendPdu plat (d.append room root prevRoot)).eventidMetadata id = s.eventidMetadata id :=
        Function.update_of_ne hid _ _
      unfold Server.stale Server.isEventRejected Server.getPduId
      rw [hrej, hmeta]
  · rw [hrej]
    exact h.unmarked id hid

end

section
variable (plat : Platform) (room : RoomId) (s₀ : Server)

/-- The outliers of a room in an order in which every event comes after its predecessors
and none is rejected or soft-failed. -/
structure Orderly (ds : List Delivery) : Prop where
  stored : ∀ d ∈ ds, StoredOutlier plat room s₀ d
  distinct : (ds.map Delivery.id).Nodup
  sorted : Replay.Sorted Delivery.id Delivery.prevEvents ds
  known : ∀ d ∈ ds, ∀ p ∈ d.prevEvents, p ∈ ds.map Delivery.id ∨ (s₀.eventRoot p).isSome
  accepted : Along plat room (Accepts plat room) ds s₀

def StoredRule (isPartial : Bool) (d : Delivery) (roots : EventId → Option Root)
    (current value : Option Root) : Prop :=
  ∃ v root, getRoomVersionId plat d.create = .ok v ∧ value = some root ∧
    SameMap root (stateAfter plat room s₀ isPartial v d roots current)

variable {plat room s₀} {s : Server} {isPartial : Bool} {d : Delivery} {ds l : List Delivery}

theorem StoredRule.same (hR : Resolves plat) {roots roots' : EventId → Option Root}
    {c c' value value' : Option Root}
    (h : StoredRule plat room s₀ isPartial d roots c value)
    (h' : StoredRule plat room s₀ isPartial d roots' c' value')
    (hp : ∀ p ∈ d.prevEvents, Option.Rel SameMap (roots p) (roots' p))
    (hc : d.resolves = true → Option.Rel SameMap c c') : Option.Rel SameMap value value' := by
  obtain ⟨v, root, hv, rfl, hroot⟩ := h
  obtain ⟨v', root', hv', rfl, hroot'⟩ := h'
  rw [hv] at hv'
  cases hv'
  exact .some ((hroot.trans (stateAfter_same hR hp hc)).trans hroot'.symm)

theorem along_snoc {C : Delivery → Server → Prop} : ∀ (l : List Delivery) {s : Server},
    Along plat room C (l ++ [d]) s → Along plat room C l s ∧ C d (deliverAll plat room l s)
  | [], _, h => ⟨trivial, h.1⟩
  | _ :: l, _, h =>
    have ih := along_snoc l h.2
    ⟨⟨h.1, ih.1⟩, ih.2⟩

theorem Orderly.init (h : Orderly plat room s₀ (l ++ [d])) : Orderly plat room s₀ l where
  stored x hx := h.stored x (by simp [hx])
  distinct := by
    have hd := h.distinct
    rw [List.map_append, List.nodup_append] at hd
    exact hd.1
  sorted := ⟨fun x hx => h.sorted.irrefl x (by simp [hx]), (List.pairwise_append.mp h.sorted.later).1⟩
  known x hx p hp := by
    refine (h.known x (by simp [hx]) p hp).imp_left fun hmem => ?_
    rw [List.map_append, List.mem_append] at hmem
    rcases hmem with hmem | hmem
    · exact hmem
    · have hlater := (List.pairwise_append.mp h.sorted.later).2.2 x hx d (by simp)
      simp only [List.map_cons, List.map_nil, List.mem_singleton] at hmem
      rw [hmem] at hp
      exact absurd hp hlater
  accepted := (along_snoc l h.accepted).1

theorem roomRoot_append (s : Server) (root : Root) (prevRoot : Option Root) :
    (s.appendPdu plat (d.append room root prevRoot)).roomRoot room =
      if d.resolves then some root else s.roomRoot room := by
  show (if d.pdu.stateKey.isSome || (d.isTimelineEvent && (d.pdu.stateKey.isSome || d.predecessorsRecovered)) then
    Function.update s.roomRoot room (some root) else s.roomRoot) room = _
  unfold Delivery.resolves
  cases d.pdu.stateKey with
  | some key => simp
  | none =>
    simp only [Option.isSome_none, Bool.false_or]
    split
    · exact Function.update_self _ _ _
    · rfl

/-- What holds after some of the outliers have been upgraded. -/
structure Upgraded (plat : Platform) (room : RoomId) (s₀ : Server) (isPartial : Bool)
    (l : List Delivery) (s : Server) :
    Prop where
  run : Replay.Run Delivery.id Delivery.resolves (StoredRule plat room s₀ isPartial) l
    (s₀.eventRoot, s₀.roomRoot room) (s.eventRoot, s.roomRoot room)
  grounded : Grounded plat room s₀ s
  untouched : ∀ x, x ∉ l.map Delivery.id → s.eventidMetadata x = s₀.eventidMetadata x
  rooted : ∀ x ∈ l.map Delivery.id, (s.eventRoot x).isSome

theorem Upgraded.step (hR : Resolves plat) (hw : Steady room isPartial s₀) (h : Upgraded plat room s₀ isPartial l s)
    (ho : Orderly plat room s₀ (l ++ [d])) (hok : Accepts plat room d s) (hclear : ForksClear plat room d s) :
    Upgraded plat room s₀ isPartial (l ++ [d]) ((d.upgrade plat room).exec s).2 := by
  have hd : StoredOutlier plat room s₀ d := ho.stored d (by simp)
  have hdl : d.id ∉ l.map Delivery.id := by
    have hdist := ho.distinct
    rw [List.map_append, List.nodup_append] at hdist
    exact fun hmem => hdist.2.2 _ hmem _ (by simp) rfl
  have hnew : s.getPduId d.id = none := by
    unfold Server.getPduId
    rw [h.untouched _ hdl]
    exact hd.fresh
  have hsteady : Steady room isPartial s := by
    refine ⟨?_, ?_, ?_⟩ <;> rw [h.grounded.world]
    · exact hw.silent
    · exact hw.partialServer
    · exact hw.order
  have hroots : ∀ p ∈ d.prevEvents, (s.eventRoot p).isSome := by
    intro p hp
    by_cases hmem : p ∈ l.map Delivery.id
    · exact h.rooted p hmem
    · have hframe : s.eventRoot p = s₀.eventRoot p := h.run.frame hmem
      rw [hframe]
      exact (ho.known d (by simp) p hp).resolve_left fun hin => hmem (ho.sorted.before hp hin)
  obtain ⟨r, hr⟩ := hok
  have hexec : (d.upgrade plat room).exec s = (.ok r, ((d.upgrade plat room).exec s).2) := Prod.ext hr rfl
  obtain ⟨v, s₁, prevRoot, root, hv, hcalm, hroot, hs'⟩ := upgrade_exec hR hsteady hnew hroots hclear hexec
  rw [hs']
  have hroots' : (s₁.appendPdu plat (d.append room root prevRoot)).eventRoot =
      Function.update s.eventRoot d.id (some root) := by
    rw [← hcalm.roots]
    rfl
  refine ⟨?_, (h.grounded.calm hcalm).append hR hd root prevRoot, fun x hx => ?_, fun x hx => ?_⟩
  · rw [hroots', roomRoot_append, hcalm.current]
    refine h.run.snoc d (some root) ⟨v, root, hv, rfl, ?_⟩
    rwa [stateAfter_eq h.grounded.pdus h.grounded.view] at hroot
  · rw [List.map_append, List.mem_append, not_or] at hx
    have hne : x ≠ d.id := by simpa using hx.2
    rw [← h.untouched x hx.1, ← hcalm.metadata]
    exact Function.update_of_ne hne _ _
  · rw [hroots']
    by_cases hxd : x = d.id
    · rw [hxd, Function.update_self]
      rfl
    · rw [Function.update_of_ne hxd]
      rw [List.map_append, List.mem_append] at hx
      refine h.rooted x (hx.resolve_right fun hin => hxd ?_)
      simpa using hin

theorem deliverAll_upgraded (hR : Resolves plat) (hw : Steady room isPartial s₀) (ho : Orderly plat room s₀ ds)
    (hf : Along plat room (ForksClear plat room) ds s₀) :
    Upgraded plat room s₀ isPartial ds (deliverAll plat room ds s₀) := by
  induction ds using List.reverseRecOn with
  | nil => exact ⟨.nil _, ⟨rfl, rfl, rfl, fun _ h => h⟩, fun _ _ => rfl, by simp⟩
  | append_singleton l d ih =>
    obtain ⟨hfl, hfd⟩ := along_snoc l hf
    have hstep := (ih ho.init hfl).step hR hw ho (along_snoc l ho.accepted).2 hfd
    unfold deliverAll at hstep ⊢
    rwa [List.foldl_append]

end

def pduRoothandleAfterEvent (s : Server) (id : EventId) : Option Root := s.eventRoot id

def SameStates (plat : Platform) (room : RoomId) (s₀ : Server) (ds ds' : List Delivery) : Prop :=
  ∀ d ∈ ds, ∃ root root', pduRoothandleAfterEvent (deliverAll plat room ds s₀) d.id = some root ∧
    pduRoothandleAfterEvent (deliverAll plat room ds' s₀) d.id = some root' ∧ SameMap root root'

/-- In whatever order the events of a room are delivered, the state stored after each is
the same, when any two that are resolved with the room's current state are related. -/
theorem deliver_sameStates (plat : Platform) (hR : Resolves plat) (room : RoomId) (s₀ : Server) (isPartial : Bool)
    (ds ds' : List Delivery) (hp : ds.Perm ds') (h : Orderly plat room s₀ ds) (h' : Orderly plat room s₀ ds')
    (hw : Steady room isPartial s₀) (hc : Replay.Chained Delivery.id Delivery.prevEvents Delivery.resolves ds)
    (hf : Along plat room (ForksClear plat room) ds s₀) (hf' : Along plat room (ForksClear plat room) ds' s₀) :
    SameStates plat room s₀ ds ds' := by
  have hu := deliverAll_upgraded hR hw h hf
  have hu' := deliverAll_upgraded hR hw h' hf'
  intro d hd
  have hrefl : ∀ o : Option Root, Option.Rel SameMap o o := by
    intro o
    cases o with
    | none => exact .none
    | some m => exact .some (.refl m)
  have hagree : Option.Rel SameMap ((deliverAll plat room ds s₀).eventRoot d.id)
      ((deliverAll plat room ds' s₀).eventRoot d.id) :=
    Replay.run_agree hrefl (fun d _ f f' c c' v v' hv hv' => StoredRule.same hR hv hv') hp h.distinct h.sorted
      h'.sorted hc hu.run hu'.run d hd
  have hsome := hu.rooted d.id (List.mem_map_of_mem hd)
  unfold pduRoothandleAfterEvent
  generalize (deliverAll plat room ds s₀).eventRoot d.id = r at hagree hsome
  generalize (deliverAll plat room ds' s₀).eventRoot d.id = r' at hagree
  cases hagree with
  | none => cases hsome
  | some hsame => exact ⟨_, _, rfl, rfl, hsame⟩

/-! ## Two runs -/

def pickEntry (sets : List Root) (k : TypeStateKey) : Option EventId :=
  ((sets.filterMap (·.lookup k)).dedup.insertionSort (· ≤ ·)).head?

/-- All entries of some states; of two for one key the smaller id is taken. -/
def unionStates (sets : List Root) : Root :=
  (sets.flatMap (·.keys)).foldl (fun acc k => match pickEntry sets k with
    | some id => acc.insert k id
    | none => acc) ∅

def Platform.union : Platform := { Platform.plain with resolveStateMaps := fun _ sets _ => unionStates sets }

theorem lookup_foldl_pick (pick : TypeStateKey → Option EventId) (k : TypeStateKey) :
    ∀ (ks : List TypeStateKey) (acc : Root), (ks.foldl (fun acc k => match pick k with
      | some id => acc.insert k id
      | none => acc) acc).lookup k = if k ∈ ks then (pick k).or (acc.lookup k) else acc.lookup k
  | [], acc => by simp
  | x :: ks, acc => by
    rw [List.foldl_cons, lookup_foldl_pick pick k ks]
    by_cases hx : k = x
    · subst hx
      cases hp : pick k with
      | none => simp
      | some id => simp [AList.lookup_insert]
    · have hlook : ∀ id, (acc.insert x id).lookup k = acc.lookup k := fun id => AList.lookup_insert_ne hx
      cases hp : pick x with
      | none => simp [hx]
      | some id => simp [hx, hlook]

theorem lookup_unionStates (sets : List Root) (k : TypeStateKey) : (unionStates sets).lookup k =
    pickEntry sets k := by
  unfold unionStates
  rw [lookup_foldl_pick]
  by_cases hk : k ∈ sets.flatMap (·.keys)
  · rw [if_pos hk]
    simp
  · rw [if_neg hk]
    have hnone : sets.filterMap (·.lookup k) = [] := by
      refine List.filterMap_eq_nil_iff.mpr fun m hm => AList.lookup_eq_none.mpr fun hmem => hk ?_
      exact List.mem_flatMap.mpr ⟨m, hm, hmem⟩
    simp [pickEntry, hnone]

theorem union_resolves : Resolves .union where
  sets v view ms ms' h h' k := by
    show (unionStates ms).lookup k = (unionStates ms').lookup k
    rw [lookup_unionStates, lookup_unionStates]
    unfold pickEntry
    congr 1
    refine insertionSort_perm ((List.perm_ext_iff_of_nodup (List.nodup_dedup _) (List.nodup_dedup _)).mpr
      fun id => ?_)
    simp only [List.mem_dedup, List.mem_filterMap]
    constructor
    · rintro ⟨m, hm, hid⟩
      obtain ⟨m', hm', hsame⟩ := h m hm
      exact ⟨m', hm', (hsame k) ▸ hid⟩
    · rintro ⟨m', hm', hid⟩
      obtain ⟨m, hm, hsame⟩ := h' m' hm'
      exact ⟨m, hm, (hsame k).trans hid⟩
  agreed v view ms m hne h k := by
    show (unionStates ms).lookup k = m.lookup k
    rw [lookup_unionStates]
    unfold pickEntry
    have hall : ∀ id, id ∈ (ms.filterMap (·.lookup k)).dedup.insertionSort (· ≤ ·) ↔ m.lookup k = some id := by
      intro id
      rw [List.mem_insertionSort, List.mem_dedup, List.mem_filterMap]
      constructor
      · rintro ⟨a, ha, hid⟩
        exact (h a ha k).symm.trans hid
      · intro hid
        obtain ⟨a, ha⟩ := List.exists_mem_of_ne_nil ms hne
        exact ⟨a, ha, (h a ha k).trans hid⟩
    generalize (ms.filterMap (·.lookup k)).dedup.insertionSort (· ≤ ·) = l at hall
    cases l with
    | nil =>
      cases hm : m.lookup k with
      | none => rfl
      | some id =>
        have hid := (hall id).mpr hm
        cases hid
    | cons x l => exact ((hall x).mp (by simp)).symm
  decode json unsigned _ := by
    show Platform.readPdu _ = Platform.readPdu _
    have hget : ∀ k, k ≠ "unsigned" → (json.insert "unsigned" (.obj unsigned)).get k = json.get k :=
      fun k hk => Object.get_insert_ne json _ hk
    unfold Platform.readPdu Platform.readIds Platform.readNat
    simp only [hget _ (by decide : "type" ≠ "unsigned"), hget _ (by decide : "sender" ≠ "unsigned"),
      hget _ (by decide : "event_id" ≠ "unsigned"), hget _ (by decide : "room_id" ≠ "unsigned"),
      hget _ (by decide : "origin_server_ts" ≠ "unsigned"), hget _ (by decide : "content" ≠ "unsigned"),
      hget _ (by decide : "state_key" ≠ "unsigned"), hget _ (by decide : "prev_events" ≠ "unsigned"),
      hget _ (by decide : "depth" ≠ "unsigned"), hget _ (by decide : "auth_events" ≠ "unsigned"),
      hget _ (by decide : "redacts" ≠ "unsigned")]

/-- The creator's room with four outliers: two state events and a message after the join,
and a state event after the first of them. -/
def Server.withOutliers : Server :=
  let s := Server.plain fun _ => .plain
  let outliers : List (EventId × Object) :=
    [("$a", wireEvent "a" "m.room.name" "@u:b" (some "") [("name", .str "x")] ["$c", "$j"] ["$j"]),
      ("$b", wireEvent "b" "m.room.topic" "@u:b" (some "") [("topic", .str "y")] ["$c", "$j"] ["$j"]),
      ("$m", wireEvent "m" "m.room.message" "@u:b" none [] ["$c", "$j"] ["$j"]),
      ("$t", wireEvent "t" "m.room.topic" "@u:b" (some "") [("topic", .str "z")] ["$c", "$j"] ["$a"])]
  { s with
    eventidPdu := fun id => (outliers.lookup id).or (s.eventidPdu id)
    eventidMetadata := fun id => if (outliers.lookup id).isSome then some ⟨true, none⟩ else s.eventidMetadata id }

def emptyPdu : Pdu := ⟨"", none, "", 0, .roomCreate, .obj [], none, [], 0, [], none, false⟩

def storedDelivery (id : EventId) : Delivery where
  n := 1
  call := 0
  pdu := (Server.withOutliers.getPduInRoom .union "!r:a" id).getD emptyPdu
  json := (Server.withOutliers.eventidPdu id).getD []
  create := (Server.withOutliers.getPduInRoom .union "!r:a" "$c").getD emptyPdu
  origin := "b"
  isTimelineEvent := true
  predecessorsRecovered := false
  anchor := none

theorem storedDelivery_outlier {id : EventId}
    (hp : (Server.withOutliers.getPduInRoom .union "!r:a" id).isSome = true)
    (hf : Server.withOutliers.getPduId id = none) :
    (storedDelivery id).id = id ∧ StoredOutlier .union "!r:a" .withOutliers (storedDelivery id) := by
  obtain ⟨pdu, hpdu⟩ := Option.isSome_iff_exists.mp hp
  have hd : (storedDelivery id).pdu = pdu := by
    show (Server.withOutliers.getPduInRoom .union "!r:a" id).getD emptyPdu = pdu
    rw [hpdu]
    rfl
  have hid : (storedDelivery id).id = id := by
    unfold Delivery.id
    rw [hd]
    exact getPduInRoom_eventId hpdu
  refine ⟨hid, ?_, ?_, ?_, rfl⟩
  · rw [hid]
    show Server.withOutliers.eventidPdu id = some ((Server.withOutliers.eventidPdu id).getD [])
    cases hj : Server.withOutliers.eventidPdu id with
    | none => simp [Server.getPduInRoom, Server.getPdu, hj] at hpdu
    | some json => rfl
  · rw [hid, hpdu, hd]
  · rw [hid]
    exact hf

def acceptsAll (plat : Platform) (room : RoomId) : List Delivery → Server → Bool
  | [], _ => true
  | d :: ds, s => ((d.upgrade plat room).exec s).1.toOption.isSome && acceptsAll plat room ds ((d.upgrade
      plat room).exec s).2

theorem along_of_acceptsAll {plat : Platform} {room : RoomId} : ∀ (ds : List Delivery) {s : Server},
    acceptsAll plat room ds s = true → Along plat room (Accepts plat room) ds s
  | [], _, _ => trivial
  | d :: ds, s, h => by
    rw [acceptsAll, Bool.and_eq_true] at h
    refine ⟨?_, along_of_acceptsAll ds h.2⟩
    unfold Accepts
    cases hr : ((d.upgrade plat room).exec s).1 with
    | ok r => exact ⟨r, rfl⟩
    | error e =>
      rw [hr] at h
      cases h.1

theorem forksClear_single {plat : Platform} {room : RoomId} :
    ∀ (ds : List Delivery) {s : Server}, (∀ d ∈ ds, d.prevEvents.length = 1) →
      Along plat room (ForksClear plat room) ds s
  | [], _, _ => trivial
  | d :: ds, s, h => by
    refine ⟨fun p hp q hq root root' pdu pdu' hr hr' hpdu hpdu' _ => ?_, forksClear_single ds
      fun x hx => h x (by simp [hx])⟩
    obtain ⟨x, hx⟩ := List.length_eq_one_iff.mp (h d (by simp))
    rw [hx, List.mem_singleton] at hp hq
    subst hp hq
    rw [hr] at hr'
    rw [hpdu] at hpdu'
    cases hr'
    cases hpdu'
    exact .refl _

theorem plain_steady : Steady "!r:a" false .withOutliers := ⟨fun _ _ _ => rfl, fun _ => rfl, fun _ _ => .refl _⟩

theorem storedDelivery_orderly (ids : List EventId)
    (hp : ∀ id ∈ ids, (Server.withOutliers.getPduInRoom .union "!r:a" id).isSome = true ∧
      Server.withOutliers.getPduId id = none)
    (hd : ((ids.map storedDelivery).map Delivery.id).Nodup)
    (hi : ∀ d ∈ ids.map storedDelivery, d.id ∉ d.prevEvents)
    (hl : (ids.map storedDelivery).Pairwise fun a b => b.id ∉ a.prevEvents)
    (hk : ∀ d ∈ ids.map storedDelivery, ∀ p ∈ d.prevEvents, p ∈ (ids.map storedDelivery).map Delivery.id ∨
      (Server.withOutliers.eventRoot p).isSome = true)
    (ha : acceptsAll .union "!r:a" (ids.map storedDelivery) .withOutliers = true) :
    Orderly .union "!r:a" .withOutliers (ids.map storedDelivery) where
  stored d hmem := by
    obtain ⟨id, hid, rfl⟩ := List.mem_map.mp hmem
    exact (storedDelivery_outlier (hp id hid).1 (hp id hid).2).2
  distinct := hd
  sorted := ⟨hi, hl⟩
  known := hk
  accepted := along_of_acceptsAll _ ha

theorem name_topic_chained :
    Replay.Chained Delivery.id Delivery.prevEvents Delivery.resolves (["$a", "$m", "$t"].map storedDelivery) := by
  have hm : (storedDelivery "$m").resolves = false := by decide
  have hat : Replay.Past Delivery.id Delivery.prevEvents (["$a", "$m", "$t"].map storedDelivery)
      (storedDelivery "$a").id (storedDelivery "$t").id :=
    .single ⟨storedDelivery "$t", by simp, rfl, by decide⟩
  intro x hx y hy hmx hmy hne
  simp only [List.map_cons, List.map_nil, List.mem_cons, List.not_mem_nil, or_false] at hx hy
  rcases hx with rfl | rfl | rfl
  · rcases hy with rfl | rfl | rfl
    · exact absurd rfl hne
    · rw [hm] at hmy
      cases hmy
    · exact .inl hat
  · rw [hm] at hmx
    cases hmx
  · rcases hy with rfl | rfl | rfl
    · exact .inr hat
    · rw [hm] at hmy
      cases hmy
    · exact absurd rfl hne

theorem name_topic_sameStates :
    (["$a", "$m", "$t"].map storedDelivery).Perm (["$m", "$a", "$t"].map storedDelivery) ∧
      SameStates .union "!r:a" .withOutliers (["$a", "$m", "$t"].map storedDelivery)
        (["$m", "$a", "$t"].map storedDelivery) := by
  have hperm : (["$a", "$m", "$t"].map storedDelivery).Perm (["$m", "$a", "$t"].map storedDelivery) :=
    List.Perm.map _ (by decide)
  refine ⟨hperm, deliver_sameStates .union union_resolves "!r:a" .withOutliers false _ _ hperm ?_ ?_ plain_steady
    name_topic_chained ?_ ?_⟩
  · exact storedDelivery_orderly _ (by decide) (by decide) (by decide) (by decide)
      (by decide) (by decide)
  · exact storedDelivery_orderly _ (by decide) (by decide) (by decide) (by decide)
      (by decide) (by decide)
  · exact forksClear_single _ (by decide)
  · exact forksClear_single _ (by decide)

-- Two state events after the join: the later one is stored with the earlier one in its
-- state, whichever that is.
theorem name_topic_forked :
    ¬ ∀ (plat : Platform) (_ : Resolves plat) (room : RoomId) (s₀ : Server) (isPartial : Bool)
      (ds ds' : List Delivery),
      ds.Perm ds' → Orderly plat room s₀ ds → Orderly plat room s₀ ds' → Steady room isPartial s₀ →
      SameStates plat room s₀ ds ds' := by
  intro h
  have hs := h .union union_resolves "!r:a" .withOutliers false (["$a", "$b"].map storedDelivery)
    (["$b", "$a"].map storedDelivery) (List.Perm.map _ (by decide))
    (storedDelivery_orderly _ (by decide) (by decide) (by decide) (by decide)
      (by decide) (by decide))
    (storedDelivery_orderly _ (by decide) (by decide) (by decide) (by decide)
      (by decide) (by decide)) plain_steady
  obtain ⟨root, root', hr, hr', hsame⟩ := hs (storedDelivery "$a") (by simp)
  have hne : ((pduRoothandleAfterEvent (deliverAll .union "!r:a" (["$a", "$b"].map storedDelivery) .withOutliers)
      (storedDelivery "$a").id).bind fun r => r.lookup (.other "m.room.topic", "")) ≠
      (pduRoothandleAfterEvent (deliverAll .union "!r:a" (["$b", "$a"].map storedDelivery) .withOutliers)
        (storedDelivery "$a").id).bind fun r => r.lookup (.other "m.room.topic", "") := by decide
  rw [hr, hr'] at hne
  exact hne (hsame _)

end Congruent
