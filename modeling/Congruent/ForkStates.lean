import Congruent.RejectedPredecessors

/-!
# Forks before an event

The predecessors of an event are collected by their stored roots, and the own entry of one
predecessor for each root is applied afterwards. Whether a fork is lost depends on what the
stored roots are: the states after the events, or before them.
-/

namespace Congruent

open H

section
variable (plat : Platform) (room : RoomId)

/-- `resolve_extremities`, for the tips of a room that has diverged. -/
def resolveExtremities (v : RoomVersionId) (prevEvents : List EventId) : H (Option Root) := do
  let order ← ask plat fun w => w.order prevEvents.length
  match ← read fun s => s.extremityRoots plat room (reorder prevEvents order) [] with
  | none => pure none
  | some forks =>
    if forks.isEmpty then pure none
    else some <$> stateResolution plat room v (forks.map fun f => stateAtIncomingFork f.1 f.2)

variable (s : Server)

def Server.forkStates (order : List EventId) : Option (List Root) :=
  (s.extremityRoots plat room order []).map fun forks => forks.map fun f => stateAtIncomingFork f.1 f.2

def SameRoot (p q : EventId) : Prop := ∃ root root', s.eventRoot p = some root ∧ s.eventRoot q =
    some root' ∧ SameMap root root'

/-- The state after every predecessor is among the forks, and they are those used when one
of the predecessors was fetched. -/
structure ForksKept (prevs : List EventId) (forks : List Root) : Prop where
  all : ∀ p ∈ prevs, ∃ fork ∈ forks, SameMap fork (forkAfter plat room s s.eventRoot p)
  fetched : ∀ anchor fetched forks', SameMap fetched (forkAfter plat room s s.eventRoot anchor) →
    s.fetchedForks plat room anchor fetched prevs = some forks' →
    (∀ fork ∈ forks, ∃ fork' ∈ forks', SameMap fork fork') ∧ ∀ fork' ∈ forks', ∃ fork ∈ forks, SameMap fork fork'

def LastOf (done : List EventId) (forks : List (Root × Pdu)) : Prop :=
  ∀ f ∈ forks, ∃ before p after root, done = before ++ p :: after ∧ s.getPduInRoom plat room p = some f.2 ∧
    s.eventRoot p = some root ∧ SameMap f.1 root ∧ ∀ q ∈ after, ¬ SameRoot s q p

end

section
variable {plat : Platform} {room : RoomId} {s : Server} {p : EventId} {done : List EventId}
  {forks : List (Root × Pdu)}

theorem putFork_last (h : LastOf plat room s done forks) {pdu : Pdu} {root : Root}
    (hp : s.getPduInRoom plat room p = some pdu) (hr : s.eventRoot p = some root) :
    LastOf plat room s (done ++ [p]) (putFork forks root pdu) := by
  -- A fork of another root stays what it was.
  have hkept : ∀ f ∈ forks, f.1.same root = false → ∃ before q after root', done ++ [p] = before ++ q :: after ∧
      s.getPduInRoom plat room q = some f.2 ∧ s.eventRoot q = some root' ∧ SameMap f.1 root' ∧
      ∀ x ∈ after, ¬ SameRoot s x q := by
    intro f hf hne
    obtain ⟨before, q, after, root', rfl, hq, hr', hsame, hlast⟩ := h f hf
    refine ⟨before, q, after ++ [p], root', by simp, hq, hr', hsame, ?_⟩
    intro x hx
    rcases List.mem_append.1 hx with hx | hx
    · exact hlast x hx
    · obtain rfl := List.mem_singleton.1 hx
      rintro ⟨a, b, ha, hb, hab⟩
      rw [hr] at ha
      rw [hr'] at hb
      cases ha
      cases hb
      have : f.1.same root = true := (Root.same_iff _ _).2 (hsame.trans hab.symm)
      rw [hne] at this
      cases this
  unfold putFork
  split
  · intro f hf
    obtain ⟨g, hg, rfl⟩ := List.mem_map.1 hf
    by_cases hsame : g.1.same root = true
    · rw [if_pos hsame]
      exact ⟨done, p, [], root, rfl, hp, hr, (Root.same_iff _ _).1 hsame, by simp⟩
    · rw [if_neg hsame]
      exact hkept g hg (Bool.eq_false_iff.2 hsame)
  · next hany =>
    intro f hf
    rcases List.mem_append.1 hf with hf | hf
    · apply hkept f hf
      by_contra hsame
      exact hany (List.any_eq_true.2 ⟨f, hf, Bool.of_not_eq_false hsame⟩)
    · obtain rfl := List.mem_singleton.1 hf
      exact ⟨done, p, [], root, rfl, hp, hr, .refl _, by simp⟩

theorem extremityRoots_last {ps : List EventId} {forks' : List (Root × Pdu)} (h : LastOf plat room s done forks)
    (hroots : s.extremityRoots plat room ps forks = some forks') : LastOf plat room s (done ++ ps) forks' := by
  induction ps generalizing done forks with
  | nil =>
    cases hroots
    rwa [List.append_nil]
  | cons p ps ih =>
    unfold Server.extremityRoots at hroots
    split at hroots
    · next pdu root hp hr =>
      split at hroots
      · have hnext := ih (putFork_last h hp hr) hroots
        rwa [List.append_assoc] at hnext
      · cases hroots
    · cases hroots

theorem extremityRoots_isSome (ps : List EventId) (forks : List (Root × Pdu)) :
    (s.extremityRoots plat room ps forks).isSome ↔ ∀ p ∈ ps, NamesRoom plat room s p ∧ (s.eventRoot p).isSome := by
  induction ps generalizing forks with
  | nil => simp [Server.extremityRoots]
  | cons p ps ih =>
    rw [List.forall_mem_cons]
    unfold Server.extremityRoots
    split
    · next pdu root hp hr =>
      have hnames : NamesRoom plat room s p ↔ pdu.roomId = some room := by
        constructor
        · rintro ⟨pdu', hp', hroom⟩
          rw [hp] at hp'
          cases hp'
          exact hroom
        · intro hroom
          exact ⟨pdu, hp, hroom⟩
      split
      · next hroom => rw [ih, hnames, hr]; simp [hroom]
      · next hroom => rw [hnames]; simp [hroom]
    · next hnone =>
      simp only [Option.isSome_none, Bool.false_eq_true, false_iff, not_and]
      rintro ⟨⟨pdu, hp, -⟩, hr⟩
      obtain ⟨root, hr⟩ := Option.isSome_iff_exists.1 hr
      exact absurd hr (hnone pdu root hp)

theorem fetchedForks_mem {prevs : List EventId} {anchor : EventId} {fetched : Root} {forks' : List Root}
    (hsame : SameMap fetched (forkAfter plat room s s.eventRoot anchor))
    (h : s.fetchedForks plat room anchor fetched prevs = some forks') :
    (∀ fork ∈ forks', ∃ p ∈ prevs, SameMap fork (forkAfter plat room s s.eventRoot p)) ∧
      ∀ p ∈ prevs, ∃ fork ∈ forks', SameMap fork (forkAfter plat room s s.eventRoot p) := by
  induction prevs generalizing forks' with
  | nil =>
    cases h
    simp
  | cons p prevs ih =>
    -- One predecessor more has one fork more.
    have hcons : ∃ first rest, forks' = first :: rest ∧ SameMap first (forkAfter plat room s s.eventRoot p) ∧
        s.fetchedForks plat room anchor fetched prevs = some rest := by
      unfold Server.fetchedForks at h
      split at h
      · next heq =>
        obtain ⟨rest, hrest, rfl⟩ := Option.map_eq_some_iff.1 h
        exact ⟨fetched, rest, rfl, heq ▸ hsame, hrest⟩
      · split at h
        · next pdu root hp hr =>
          obtain ⟨rest, hrest, rfl⟩ := Option.map_eq_some_iff.1 h
          refine ⟨_, rest, rfl, ?_, hrest⟩
          rw [forkAfter_eq hp hr]
          exact .refl _
        · cases h
    obtain ⟨first, rest, rfl, hfirst, hrest⟩ := hcons
    obtain ⟨hof, hall⟩ := ih hrest
    constructor
    · intro fork hfork
      rcases List.mem_cons.1 hfork with rfl | hfork
      · exact ⟨p, by simp, hfirst⟩
      · obtain ⟨q, hq, hfq⟩ := hof fork hfork
        exact ⟨q, List.mem_cons_of_mem _ hq, hfq⟩
    · intro q hq
      rcases List.mem_cons.1 hq with rfl | hq
      · exact ⟨first, by simp, hfirst⟩
      · obtain ⟨fork, hfork, hfq⟩ := hall q hq
        exact ⟨fork, List.mem_cons_of_mem _ hfork, hfq⟩

/-! ## What is handed to state resolution -/

theorem extremityRoots_tick (ps : List EventId) (forks : List (Root × Pdu)) :
    (Write.tick.apply plat s).extremityRoots plat room ps forks = s.extremityRoots plat room ps forks := by
  induction ps generalizing forks with
  | nil => rfl
  | cons p ps ih =>
    simp only [Server.extremityRoots, ih]
    rfl

theorem resolvedState_hands {v : RoomVersionId} {prevs : List EventId} {forks : List Root}
    (h : s.forkStates plat room (reorder prevs ((s.world s.clock).order prevs.length)) = some forks) :
    (stateAtIncomingResolved plat room v prevs).exec s =
      (some <$> stateResolution plat room v forks).exec (Write.tick.apply plat s) := by
  obtain ⟨roots, hroots, rfl⟩ := Option.map_eq_some_iff.1 h
  unfold stateAtIncomingResolved
  rw [exec_ask, exec_read, extremityRoots_tick, hroots]

theorem resolveExtremities_hands {v : RoomVersionId} {prevs : List EventId} {forks : List Root}
    (h : s.forkStates plat room (reorder prevs ((s.world s.clock).order prevs.length)) = some forks)
    (hne : forks ≠ []) :
    (resolveExtremities plat room v prevs).exec s =
      (some <$> stateResolution plat room v forks).exec (Write.tick.apply plat s) := by
  obtain ⟨roots, hroots, rfl⟩ := Option.map_eq_some_iff.1 h
  have hnonempty : roots.isEmpty = false := by
    cases roots with
    | nil => exact absurd rfl hne
    | cons root roots => rfl
  unfold resolveExtremities
  rw [exec_ask, exec_read, extremityRoots_tick, hroots]
  simp only [hnonempty, Bool.false_eq_true, if_false]

/-! ## Which forks are kept -/

section
variable {prevs order : List EventId} {fs : List Root}

theorem forkStates_of (hperm : order.Perm prevs) (h : s.forkStates plat room order = some fs) :
    (∀ fork ∈ fs, ∃ p ∈ prevs, SameMap fork (forkAfter plat room s s.eventRoot p)) ∧
      ∀ q ∈ prevs, ∃ fork ∈ fs, ∃ r ∈ prevs, SameRoot s r q ∧
        SameMap fork (forkAfter plat room s s.eventRoot r) := by
  obtain ⟨roots, hroots, rfl⟩ := Option.map_eq_some_iff.1 h
  obtain ⟨seen, hforks, hseen⟩ := extremityRoots_forks order [] [] roots ⟨by simp, by simp⟩ hroots
  have hmem : ∀ p, p ∈ seen ↔ p ∈ prevs := by
    intro p
    rw [hseen, ← hperm.mem_iff]
    simp
  have hfork : ∀ f ∈ roots, ∃ p ∈ prevs, ∃ root, s.eventRoot p = some root ∧ SameMap f.1 root ∧
      SameMap (stateAtIncomingFork f.1 f.2) (forkAfter plat room s s.eventRoot p) := by
    intro f hf
    obtain ⟨p, hp, root, hpdu, hr, hsame⟩ := hforks.of f hf
    refine ⟨p, (hmem p).1 hp, root, hr, hsame, ?_⟩
    rw [forkAfter_eq hpdu hr]
    exact stateAtIncomingFork_same hsame f.2
  constructor
  · intro fork hmem
    obtain ⟨f, hf, rfl⟩ := List.mem_map.1 hmem
    obtain ⟨p, hp, -, -, -, hsame⟩ := hfork f hf
    exact ⟨p, hp, hsame⟩
  · intro q hq
    obtain ⟨f, hf, root, hr, hsame⟩ := hforks.all q ((hmem q).2 hq)
    obtain ⟨r, hr', root', hroot', hsame', hstate⟩ := hfork f hf
    exact ⟨_, List.mem_map_of_mem hf, r, hr', ⟨root', root, hroot', hr, hsame'.symm.trans hsame⟩, hstate⟩

theorem forksKept_of_all (hperm : order.Perm prevs) (h : s.forkStates plat room order = some fs)
    (hall : ∀ p ∈ prevs, ∃ fork ∈ fs, SameMap fork (forkAfter plat room s s.eventRoot p)) :
    ForksKept plat room s prevs fs := by
  refine ⟨hall, ?_⟩
  intro anchor fetched forks' hsame hfetched
  obtain ⟨hof', hall'⟩ := fetchedForks_mem hsame hfetched
  have hof := (forkStates_of hperm h).1
  constructor
  · intro fork hfork
    obtain ⟨p, hp, hfork⟩ := hof fork hfork
    obtain ⟨fork', hfork', hsame'⟩ := hall' p hp
    exact ⟨fork', hfork', hfork.trans hsame'.symm⟩
  · intro fork' hfork'
    obtain ⟨p, hp, hsame'⟩ := hof' fork' hfork'
    obtain ⟨fork, hfork, hsame⟩ := hall p hp
    exact ⟨fork, hfork, hsame.trans hsame'.symm⟩

/-- When every root has a predecessor of another state, these may all come last. -/
theorem exists_dropping_order {p : EventId} (h : ∀ q ∈ prevs, ∃ r ∈ prevs, SameRoot s r q ∧
    ¬ SameMap (forkAfter plat room s s.eventRoot r) (forkAfter plat room s s.eventRoot p)) :
    ∃ order, order.Perm prevs ∧ ∀ fs, s.forkStates plat room order = some fs →
      ∀ fork ∈ fs, ¬ SameMap fork (forkAfter plat room s s.eventRoot p) := by
  classical
  let Like := fun r => SameMap (forkAfter plat room s s.eventRoot r) (forkAfter plat room s s.eventRoot p)
  refine ⟨prevs.filter (fun r => Like r) ++ prevs.filter (fun r => ¬ Like r), ?_, ?_⟩
  · have := List.filter_append_perm (fun r => decide (Like r)) prevs
    simpa using this
  · intro fs hfs fork hfork hsame
    obtain ⟨roots, hroots, rfl⟩ := Option.map_eq_some_iff.1 hfs
    obtain ⟨f, hf, rfl⟩ := List.mem_map.1 hfork
    have hnone : LastOf plat room s [] [] := by
      intro f hf
      cases hf
    obtain ⟨before, q, after, root, horder, hpdu, hr, hroot, hlast⟩ := extremityRoots_last hnone hroots f hf
    rw [List.nil_append] at horder
    have hlike : Like q := by
      show SameMap (forkAfter plat room s s.eventRoot q) _
      rw [forkAfter_eq hpdu hr]
      exact (stateAtIncomingFork_same hroot f.2).symm.trans hsame
    have hq : q ∈ prevs := by
      have hmem : q ∈ before ++ q :: after := by simp
      rw [← horder, List.mem_append, List.mem_filter, List.mem_filter] at hmem
      exact hmem.elim And.left And.left
    -- All those of another state come after `q`, one with its root among them.
    have hsub : ∀ r ∈ prevs, ¬ Like r → r ∈ after := by
      intro r hr hne
      have hbad : r ∈ prevs.filter (fun r => ¬ Like r) := List.mem_filter.2 ⟨hr, by simpa using hne⟩
      have hnot : q ∉ prevs.filter (fun r => ¬ Like r) := by
        intro hmem
        have := (List.mem_filter.1 hmem).2
        simp only [decide_eq_true_eq] at this
        exact this hlike
      rcases List.append_eq_append_iff.1 horder with ⟨mid, rfl, hrest⟩ | ⟨mid, -, hrest⟩
      · exact absurd (hrest ▸ by simp) hnot
      · cases mid with
        | nil => exact absurd (by rw [← List.nil_append (List.filter _ prevs), ← hrest]; simp) hnot
        | cons x mid =>
          obtain ⟨-, rfl⟩ := List.cons.inj hrest
          exact List.mem_append_right mid hbad
    obtain ⟨r, hr, hroot', hne⟩ := h q hq
    exact hlast r (hsub r hr hne) hroot'

/-- The states that both resolutions hand on, whatever the order the lookups complete in, leave
no fork out exactly when each predecessor names the room, and there is for it a stored root all
of whose predecessors have the state after them that it has. -/
theorem no_fork_dropped (hroots : ∀ p ∈ prevs, (s.eventRoot p).isSome) :
    (∀ v fs, s.forkStates plat room (reorder prevs ((s.world s.clock).order prevs.length)) = some fs → fs ≠ [] →
      (stateAtIncomingResolved plat room v prevs).exec s =
          (some <$> stateResolution plat room v fs).exec (Write.tick.apply plat s) ∧
        (resolveExtremities plat room v prevs).exec s =
          (some <$> stateResolution plat room v fs).exec (Write.tick.apply plat s)) ∧
    ((∀ order, order.Perm prevs → ∃ fs, s.forkStates plat room order = some fs ∧ ForksKept plat room s prevs fs) ↔
      (∀ p ∈ prevs, NamesRoom plat room s p) ∧
        ∀ p ∈ prevs, ∃ q ∈ prevs, ∀ r ∈ prevs, SameRoot s r q →
          SameMap (forkAfter plat room s s.eventRoot r) (forkAfter plat room s s.eventRoot p)) := by
  refine ⟨fun v fs hfs hne => ⟨resolvedState_hands hfs, resolveExtremities_hands hfs hne⟩, ?_⟩
  have hsome : ∀ order, order.Perm prevs →
      ((s.forkStates plat room order).isSome ↔ ∀ p ∈ prevs, NamesRoom plat room s p) := by
    intro order hperm
    rw [Server.forkStates, Option.isSome_map, extremityRoots_isSome]
    constructor
    · intro h p hp
      exact (h p (hperm.mem_iff.2 hp)).1
    · intro h p hp
      have hp := hperm.mem_iff.1 hp
      exact ⟨h p hp, hroots p hp⟩
  constructor
  · intro h
    constructor
    · obtain ⟨fs, hfs, -⟩ := h prevs (.refl _)
      exact (hsome prevs (.refl _)).1 (Option.isSome_of_eq_some hfs)
    · intro p hp
      by_contra hno
      push Not at hno
      obtain ⟨order, hperm, hdrop⟩ := exists_dropping_order hno
      obtain ⟨fs, hfs, hkept⟩ := h order hperm
      obtain ⟨fork, hfork, hsame⟩ := hkept.all p hp
      exact hdrop fs hfs fork hfork hsame
  · rintro ⟨hnames, hclasses⟩ order hperm
    obtain ⟨fs, hfs⟩ := Option.isSome_iff_exists.1 ((hsome order hperm).2 hnames)
    refine ⟨fs, hfs, forksKept_of_all hperm hfs ?_⟩
    intro p hp
    obtain ⟨q, hq, hclass⟩ := hclasses p hp
    obtain ⟨fork, hfork, r, hr, hroot, hsame⟩ := (forkStates_of hperm hfs).2 q hq
    exact ⟨fork, hfork, hsame.trans (hclass r hr hroot)⟩

end

end

/-! ## Two outliers after one event -/

/-- The room with roots for the outliers `$a` and `$b`. -/
def Server.outlierRoots (rootA rootB : Option Root) : Server :=
  { Server.withOutliers with
    eventRoot := fun id => if id = "$a" then rootA else if id = "$b" then rootB else
      Server.withOutliers.eventRoot id }

theorem outlierRoots_namesRoom (rootA rootB : Option Root) :
    ∀ p ∈ ["$a", "$b"], NamesRoom .union "!r:a" (Server.outlierRoots rootA rootB) p := by
  have hroom : ∀ p ∈ ["$a", "$b"], (Server.withOutliers.getPduInRoom .union "!r:a" p).map (·.roomId) =
      some (some "!r:a") := by
    decide
  intro p hp
  exact Option.map_eq_some_iff.1 (hroom p hp)

theorem outlierRoots_isSome {rootA rootB : Root} :
    ∀ p ∈ ["$a", "$b"], ((Server.outlierRoots (some rootA) (some rootB)).eventRoot p).isSome := by
  intro p hp
  simp only [List.mem_cons, List.not_mem_nil, or_false] at hp
  rcases hp with rfl | rfl
  · rfl
  · rfl

def joinRoot : Root := ((∅ : Root).insert (.roomCreate, "") "$c").insert (.roomMember, "@u:b") "$j"

theorem no_fork_dropped_after_roots :
    ∃ fs, (Server.outlierRoots (some (joinRoot.insert (.other "m.room.name", "") "$a"))
        (some (joinRoot.insert (.other "m.room.topic", "") "$b"))).forkStates .union "!r:a" ["$a", "$b"] = some fs ∧
      ForksKept .union "!r:a" (Server.outlierRoots (some (joinRoot.insert (.other "m.room.name", "") "$a"))
        (some (joinRoot.insert (.other "m.room.topic", "") "$b"))) ["$a", "$b"] fs := by
  refine ((no_fork_dropped outlierRoots_isSome).2).2 ⟨outlierRoots_namesRoom _ _, ?_⟩ ["$a", "$b"] (.refl _)
  intro p hp
  refine ⟨p, hp, ?_⟩
  rintro r hr ⟨root, root', hroot, hroot', hsame⟩
  simp only [List.mem_cons, List.not_mem_nil, or_false] at hp hr
  rcases hp with rfl | rfl
  · rcases hr with rfl | rfl
    · exact .refl _
    · cases hroot
      cases hroot'
      exact absurd (hsame (.other "m.room.name", "")) (by decide)
  · rcases hr with rfl | rfl
    · cases hroot
      cases hroot'
      exact absurd (hsame (.other "m.room.name", "")) (by decide)
    · exact .refl _

/-- Of two predecessors with the root before both of them, only one has its fork resolved. -/
theorem fork_of_shared_root_dropped :
    ¬ ∀ (plat : Platform) (room : RoomId) (s : Server) (prevs : List EventId),
      (∀ p ∈ prevs, (s.eventRoot p).isSome) → (∀ p ∈ prevs, NamesRoom plat room s p) → 2 ≤ prevs.length →
      ∀ order, order.Perm prevs → ∃ fs, s.forkStates plat room order = some fs ∧
        ∀ p ∈ prevs, ∃ fork ∈ fs, SameMap fork (forkAfter plat room s s.eventRoot p) := by
  intro h
  obtain ⟨fs, hfs, hall⟩ := h .union "!r:a" (.outlierRoots (some joinRoot) (some joinRoot)) ["$a", "$b"]
    outlierRoots_isSome (outlierRoots_namesRoom _ _) (by decide) ["$a", "$b"] (.refl _)
  obtain ⟨fork, hfork, hsame⟩ := hall "$a" (by simp)
  have hnone : ∀ fork ∈ ((Server.outlierRoots (some joinRoot) (some joinRoot)).forkStates .union "!r:a"
    ["$a", "$b"]).getD [],
      fork.lookup (.other "m.room.name", "") ≠ some "$a" := by decide
  have hname : (forkAfter .union "!r:a" (.outlierRoots (some joinRoot) (some joinRoot))
      (Server.outlierRoots (some joinRoot) (some joinRoot)).eventRoot "$a").lookup (.other "m.room.name", "") =
        some "$a" := by
    decide
  rw [hfs] at hnone
  exact hnone fork hfork ((hsame _).trans hname)

end Congruent
