import Congruent.DelayedEvents

/-!
# The life of a delayed event

What the state holds of one delay id goes through the phases of one event, as long as no
call is taken up before the worker has filled the set, no restart puts back a row that is
gone, and no process ends between the timeline's answer and the removal of the row.
-/

namespace Congruent.DelayedEvents

/-- Where a delayed event stands. -/
inductive Phase where
  | unused
  | entering (put : Bool)
  | waiting
  | held
  /-- The timeline has the event, and nothing is recorded yet. -/
  | sent (eventId : String)
  | recorded
  | closed
  /-- In the table only, if at all. -/
  | stored
  deriving DecidableEq

namespace Phase

inductive Next : Phase → Phase → Prop where
  | stay (p : Phase) : Next p p
  | draw : Next unused (entering false)
  | put : Next (entering false) (entering true)
  | enlist : Next (entering true) waiting
  | claim : Next waiting held
  | relist : Next held waiting
  | send (eventId : String) : Next held (sent eventId)
  | record : Next held recorded
  | recordSent (eventId : String) : Next (sent eventId) recorded
  | close : Next recorded closed
  | abandon (put : Bool) : Next (entering put) stored
  | unlist : Next waiting stored
  | release : Next held stored
  | load : Next stored waiting

/-- The calls that have an event in their hands. -/
def owners : Phase → List Phase
  | entering put => [entering put]
  | held => [held]
  | sent eventId => [sent eventId]
  | recorded => [recorded]
  | _ => []

def listed : Phase → Bool
  | waiting => true
  | _ => false

def drawn : Phase → Bool
  | unused => false
  | _ => true

def finalized : Phase → Bool
  | recorded => true
  | closed => true
  | _ => false

def timeline (f : Option FinalizedDelayedEvent) : Phase → List String
  | sent eventId => [eventId]
  | recorded => (f.bind (·.eventId)).toList
  | closed => (f.bind (·.eventId)).toList
  | _ => []

/-- Whether the row of the event must be there, must not, or may. -/
def row : Phase → Option Bool
  | unused => some false
  | entering put => some put
  | closed => some false
  | stored => none
  | _ => some true

end Phase

/-- What a call has in its hands at a stage. -/
def Stage.owns : Stage → Option Phase
  | .putRow _ => some (.entering false)
  | .putRelation _ => some (.entering true)
  | .enlist _ => some (.entering true)
  | .act .. => some .held
  | .relist _ => some .held
  | .record finalized _ => some (finalized.eventId.elim .held .sent)
  | .removeRow .. => some .recorded
  | _ => none

def Call.owns (delayId : String) (c : Call) : Option Phase := if c.delayId = delayId then c.stage.owns else none

def Worker.loadedEvents : Worker → List String
  | .loading loadedEvents => loadedEvents
  | _ => []

/-- What the state holds of a delay id. -/
structure View where
  owners : List Phase
  listed : Bool
  loading : Bool
  drawn : Bool
  row : Option ScheduledDelayedEvent
  finalized : Option FinalizedDelayedEvent
  timeline : List String

def World.view (s : World) (delayId : String) : View where
  owners := s.calls.filterMap (·.owns delayId)
  listed := delayId ∈ s.scheduledEvents
  loading := delayId ∈ s.worker.loadedEvents
  drawn := delayId ∈ s.drawn
  row := s.delayidScheduleddelayedevent.get delayId
  finalized := s.delayidFinalizeddelayedevent.get delayId
  timeline := s.sentAs delayId

structure View.In (v : View) (p : Phase) : Prop where
  owners : v.owners = p.owners
  listed : v.listed = p.listed
  loading : v.loading = true → p = .stored ∧ v.row.isSome = true
  drawn : v.drawn = p.drawn
  row : ∀ present ∈ p.row, v.row.isSome = present
  finalized : v.finalized.isSome = p.finalized
  timeline : v.timeline = p.timeline v.finalized

/-- What is recorded stays, and the timeline only grows. -/
structure View.Kept (v v' : View) : Prop where
  finalized : ∀ f ∈ v.finalized, f ∈ v'.finalized
  timeline : v.timeline <+: v'.timeline

theorem View.Kept.refl (v : View) : v.Kept v := ⟨fun _ h => h, List.prefix_rfl⟩

theorem View.Kept.trans {v v' v'' : View} (h : v.Kept v') (h' : v'.Kept v'') : v.Kept v'' :=
  ⟨fun f hf => h'.finalized f (h.finalized f hf), h.timeline.trans h'.timeline⟩

/-- A step of an event along its phases. -/
def View.Evolves (v v' : View) (p : Phase) : Prop := ∃ p', v'.In p' ∧ p.Next p' ∧ v.Kept v'

theorem View.In.evolves {v : View} {p : Phase} (h : v.In p) : v.Evolves v p := ⟨p, h, .stay p, .refl v⟩

theorem View.In.owner {v : View} {p q : Phase} (h : v.In p) (hq : q ∈ v.owners) : p = q := by
  rw [h.owners] at hq
  cases p <;> simp [Phase.owners] at hq <;> exact hq.symm

theorem View.In.owners_eq {v : View} {p q : Phase} (h : v.In p) (hq : q ∈ v.owners) : v.owners = [q] := by
  have hp := h.owner hq
  rw [h.owners] at hq ⊢
  subst hp
  cases p <;> simp [Phase.owners] at hq ⊢

theorem View.In.waiting {v : View} {p : Phase} (h : v.In p) (hlisted : v.listed = true) : p = .waiting := by
  rw [h.listed] at hlisted
  cases p with
  | waiting => rfl
  | _ => cases hlisted

/-! ## Steps of a call -/

namespace World

variable {s : World} {k : Nat} {c : Call} {stage : Stage} {x : String}

theorem view_setStage_of_ne (hk : s.calls[k]? = some c) (hx : c.delayId ≠ x) :
    (s.setStage k c stage).view x = s.view x := by
  have howns : ∀ st : Stage, Call.owns x ⟨c.delayId, c.request, st⟩ = none := fun st => if_neg hx
  exact congrArg (fun owners => { s.view x with owners := owners })
    (filterMap_set_of_none hk (howns c.stage) (howns stage))

theorem view_setStage_of_none (hk : s.calls[k]? = some c) (hc : c.stage.owns = none) (hstage : stage.owns = none) :
    (s.setStage k c stage).view x = s.view x := by
  have howns : ∀ st : Stage, st.owns = none → Call.owns x ⟨c.delayId, c.request, st⟩ = none := fun st hst => by
    unfold Call.owns
    split
    · exact hst
    · rfl
  exact congrArg (fun owners => { s.view x with owners := owners })
    (filterMap_set_of_none hk (howns c.stage hc) (howns stage hstage))

theorem owners_setStage (hk : s.calls[k]? = some c) (hsole : (s.view c.delayId).owners = c.stage.owns.toList) :
    ((s.setStage k c stage).view c.delayId).owners = stage.owns.toList := by
  have howns : ∀ st : Stage, Call.owns c.delayId ⟨c.delayId, c.request, st⟩ = st.owns := fun st => if_pos rfl
  have hsole' : s.calls.filterMap (·.owns c.delayId) = (c.owns c.delayId).toList :=
    hsole.trans (congrArg Option.toList (howns c.stage).symm)
  exact (filterMap_set_of_sole hk hsole' _).trans (congrArg Option.toList (howns stage))

theorem owner_mem (hk : s.calls[k]? = some c) {q : Phase} (hq : c.stage.owns = some q) :
    q ∈ (s.view c.delayId).owners :=
  List.mem_filterMap.mpr ⟨c, List.mem_of_getElem? hk, (if_pos rfl).trans hq⟩

theorem view_eq {s' : World} (howners : (s'.calls.filterMap (·.owns x)) = s.calls.filterMap (·.owns x))
    (hlisted : x ∈ s'.scheduledEvents ↔ x ∈ s.scheduledEvents)
    (hworker : s'.worker.loadedEvents = s.worker.loadedEvents) (hdrawn : x ∈ s'.drawn ↔ x ∈ s.drawn)
    (hrow : s'.delayidScheduleddelayedevent.get x = s.delayidScheduleddelayedevent.get x)
    (hfinalized : s'.delayidFinalizeddelayedevent.get x = s.delayidFinalizeddelayedevent.get x)
    (htimeline : (s'.view x).timeline = (s.view x).timeline) : s'.view x = s.view x := by
  have heq : ∀ {a b : View}, a.owners = b.owners → a.listed = b.listed → a.loading = b.loading → a.drawn = b.drawn →
      a.row = b.row → a.finalized = b.finalized → a.timeline = b.timeline → a = b := by
    rintro ⟨⟩ ⟨⟩ rfl rfl rfl rfl rfl rfl rfl
    rfl
  exact heq howners (decide_eq_decide.mpr hlisted) (by rw [view, hworker]; rfl) (decide_eq_decide.mpr hdrawn) hrow
    hfinalized htimeline

theorem view_proceed_of_ne {s' : World} {now : Nat} {sent : Except Error String} (hk : s.calls[k]? = some c)
    (hs : proceed k now sent c s = some s') (hx : c.delayId ≠ x) : s'.view x = s.view x := by
  have hcalls : ∀ st : Stage, (s.setStage k c st).calls.filterMap (·.owns x) = s.calls.filterMap (·.owns x) :=
    fun st => congrArg View.owners (view_setStage_of_ne hk hx)
  cases hstage : c.stage with
  | putRow event | putRestarted event =>
    simp only [proceed, hstage, Option.some.injEq] at hs
    subst hs
    exact view_eq (hcalls _) .rfl rfl .rfl (SortedMap.get_insert_of_ne _ _ hx.symm) rfl rfl
  | putRelation event | announce submissionTime | delRelation relation result =>
    simp only [proceed, hstage, Option.some.injEq] at hs
    subst hs
    exact view_eq (hcalls _) .rfl rfl .rfl rfl rfl rfl
  | enlist submissionTime | relist error =>
    simp only [proceed, hstage, Option.some.injEq] at hs
    subst hs
    exact view_eq (hcalls _) (by simp [hx.symm]) rfl .rfl rfl rfl rfl
  | find action =>
    simp only [proceed, hstage] at hs
    split at hs
    · cases hs
      exact view_setStage_of_ne hk hx
    · split at hs
      · cases hs
        exact view_setStage_of_ne hk hx
      · cases hs
        exact view_setStage_of_ne hk hx
  | claim event action leave =>
    simp only [proceed, hstage] at hs
    split at hs
    · cases hs
      exact view_eq (hcalls _) (by simp [hx.symm]) rfl .rfl rfl rfl rfl
    · cases hs
      exact view_setStage_of_ne hk hx
  | act event action leave timestamp =>
    cases action with
    | restart => simp only [proceed, hstage, reduceCtorEq] at hs
    | cancel =>
      simp only [proceed, hstage, Option.some.injEq] at hs
      subst hs
      exact view_setStage_of_ne hk hx
    | send =>
      cases sent with
      | ok eventId =>
        simp only [proceed, hstage, Option.some.injEq] at hs
        subst hs
        refine view_eq (hcalls _) .rfl rfl .rfl rfl rfl ?_
        simp [view, sentAs, hx]
      | error error =>
        simp only [proceed, hstage] at hs
        split at hs
        · cases hs
          exact view_setStage_of_ne hk hx
        · cases hs
          exact view_setStage_of_ne hk hx
  | record finalized result =>
    simp only [proceed, hstage, Option.some.injEq] at hs
    subst hs
    exact view_eq (hcalls _) .rfl rfl .rfl rfl (SortedMap.get_insert_of_ne _ _ hx.symm) rfl
  | removeRow relation result =>
    simp only [proceed, hstage, Option.some.injEq] at hs
    subst hs
    exact view_eq (hcalls _) .rfl rfl .rfl (SortedMap.get_remove_of_ne _ hx.symm) rfl rfl
  | check action =>
    simp only [proceed, hstage] at hs
    split at hs
    · cases hs
      exact view_setStage_of_ne hk hx
    · cases hs
      exact view_setStage_of_ne hk hx
  | checkAgain action =>
    simp only [proceed, hstage, Option.some.injEq] at hs
    subst hs
    exact view_setStage_of_ne hk hx
  | finished result => simp only [proceed, hstage, reduceCtorEq] at hs

theorem worker_proceed {s' : World} {now : Nat} {sent : Except Error String}
    (hs : proceed k now sent c s = some s') :
    s'.worker = s.worker := by
  unfold proceed at hs
  repeat' split at hs
  all_goals cases hs
  all_goals rfl

theorem calls_proceed {s' : World} {now : Nat} {sent : Except Error String}
    (hs : proceed k now sent c s = some s') :
    ∃ stage, s'.calls = s.calls.set k { c with stage := stage } := by
  unfold proceed at hs
  repeat' split at hs
  all_goals cases hs
  all_goals exact ⟨_, rfl⟩

/-- A call takes the event in its hands a phase on. -/
theorem proceed_evolves {s' : World} {now : Nat} {sent : Except Error String} (hk : s.calls[k]? = some c)
    (hs : proceed k now sent c s = some s')
    (hrow : ∀ event, c.stage = .putRestarted event → (s.view c.delayId).row.isSome = true) {p : Phase}
    (h : (s.view c.delayId).In p) : (s.view c.delayId).Evolves (s'.view c.delayId) p := by
  have hsole : ∀ {q : Phase}, c.stage.owns = some q → p = q ∧ ∀ st : Stage,
      ((s.setStage k c st).view c.delayId).owners = st.owns.toList := fun {q} hq =>
    ⟨h.owner (owner_mem hk hq), fun st => owners_setStage hk (by rw [h.owners_eq (owner_mem hk hq), hq]; rfl)⟩
  have hother : ∀ st : Stage, c.stage.owns = none → st.owns = none →
      (s.view c.delayId).Evolves ((s.setStage k c st).view c.delayId) p := fun st hc hst => by
    rw [view_setStage_of_none hk hc hst]
    exact h.evolves
  cases hstage : c.stage with
  | putRow event =>
    simp only [proceed, hstage, Option.some.injEq] at hs
    subst hs
    obtain ⟨rfl, howners⟩ := hsole (by rw [hstage]; rfl)
    refine ⟨.entering true, ⟨howners _, h.listed, fun hl => absurd (h.loading hl).1 (by simp), h.drawn, ?_,
      h.finalized, h.timeline⟩, .put, ⟨fun f hf => hf, List.prefix_rfl⟩⟩
    rintro _ ⟨⟩
    exact congrArg Option.isSome (SortedMap.get_insert_self _ _ _)
  | putRelation event =>
    simp only [proceed, hstage, Option.some.injEq] at hs
    subst hs
    obtain ⟨rfl, howners⟩ := hsole (by rw [hstage]; rfl)
    exact ⟨.entering true, ⟨howners _, h.listed, h.loading, h.drawn, h.row, h.finalized, h.timeline⟩, .stay _,
      ⟨fun f hf => hf, List.prefix_rfl⟩⟩
  | enlist submissionTime =>
    simp only [proceed, hstage, Option.some.injEq] at hs
    subst hs
    obtain ⟨rfl, howners⟩ := hsole (by rw [hstage]; rfl)
    exact ⟨.waiting, ⟨howners _, decide_eq_true (Finset.mem_insert_self _ _),
      fun hl => absurd (h.loading hl).1 (by simp), h.drawn, h.row, h.finalized, h.timeline⟩, .enlist,
      ⟨fun f hf => hf, List.prefix_rfl⟩⟩
  | announce submissionTime =>
    simp only [proceed, hstage, Option.some.injEq] at hs
    subst hs
    exact hother (.finished (.ok ())) (by rw [hstage]; rfl) rfl
  | find action =>
    simp only [proceed, hstage] at hs
    split at hs
    · cases hs
      exact hother _ (by rw [hstage]; rfl) rfl
    · split at hs
      · cases hs
        exact hother _ (by rw [hstage]; rfl) rfl
      · cases hs
        exact hother _ (by rw [hstage]; rfl) rfl
  | putRestarted event =>
    simp only [proceed, hstage, Option.some.injEq] at hs
    subst hs
    have hold := hrow event hstage
    have hnew := congrArg Option.isSome (SortedMap.get_insert_self s.delayidScheduleddelayedevent c.delayId event)
    have howners : ((s.setStage k c (.finished (.ok ()))).view c.delayId).owners = p.owners := by
      rw [view_setStage_of_none hk (by rw [hstage]; rfl) rfl]
      exact h.owners
    exact ⟨p, ⟨howners, h.listed, fun hl => ⟨(h.loading hl).1, hnew⟩, h.drawn,
      fun present hp => hnew.trans (hold.symm.trans (h.row present hp)), h.finalized, h.timeline⟩, .stay _,
      ⟨fun f hf => hf, List.prefix_rfl⟩⟩
  | claim event action leave =>
    simp only [proceed, hstage] at hs
    split at hs
    · rename_i hlisted
      cases hs
      obtain rfl := h.waiting (decide_eq_true hlisted)
      have howners : ((s.setStage k c (.act event action leave now)).view c.delayId).owners = [.held] :=
        owners_setStage hk (h.owners.trans (by rw [hstage]; rfl))
      exact ⟨.held, ⟨howners, decide_eq_false (Finset.notMem_erase _ _),
        fun hl => absurd (h.loading hl).1 (by simp), h.drawn, h.row, h.finalized, h.timeline⟩, .claim,
        ⟨fun f hf => hf, List.prefix_rfl⟩⟩
    · cases hs
      exact hother _ (by rw [hstage]; rfl) rfl
  | act event action leave timestamp =>
    obtain ⟨rfl, howners⟩ := hsole (by rw [hstage]; rfl)
    have hheld : ∀ st : Stage, st.owns = some .held →
        (s.view c.delayId).Evolves ((s.setStage k c st).view c.delayId) .held := fun st hst =>
      ⟨.held, ⟨(howners st).trans (by rw [hst]; rfl), h.listed, h.loading, h.drawn, h.row, h.finalized, h.timeline⟩,
        .stay _, ⟨fun f hf => hf, List.prefix_rfl⟩⟩
    cases action with
    | restart => simp only [proceed, hstage, reduceCtorEq] at hs
    | cancel =>
      simp only [proceed, hstage, Option.some.injEq] at hs
      subst hs
      exact hheld _ rfl
    | send =>
      cases sent with
      | ok eventId =>
        simp only [proceed, hstage, Option.some.injEq] at hs
        subst hs
        have htimeline : (s.timeline ++ [(c.delayId, eventId)]).filterMap
            (fun sent => if sent.1 = c.delayId then some sent.2 else none) =
            (s.view c.delayId).timeline ++ [eventId] := by
          simp [view, sentAs]
        refine ⟨.sent eventId, ⟨howners _, h.listed, fun hl => absurd (h.loading hl).1 (by simp), h.drawn, h.row,
          h.finalized, htimeline.trans ?_⟩, .send eventId, ⟨fun f hf => hf, [eventId], htimeline.symm⟩⟩
        rw [h.timeline]
        rfl
      | error error =>
        simp only [proceed, hstage] at hs
        split at hs
        · cases hs
          exact hheld _ rfl
        · cases hs
          exact hheld _ rfl
  | relist error =>
    simp only [proceed, hstage, Option.some.injEq] at hs
    subst hs
    obtain ⟨rfl, howners⟩ := hsole (by rw [hstage]; rfl)
    exact ⟨.waiting, ⟨howners _, decide_eq_true (Finset.mem_insert_self _ _),
      fun hl => absurd (h.loading hl).1 (by simp), h.drawn, h.row, h.finalized, h.timeline⟩, .relist,
      ⟨fun f hf => hf, List.prefix_rfl⟩⟩
  | record finalized result =>
    simp only [proceed, hstage, Option.some.injEq] at hs
    subst hs
    obtain ⟨rfl, howners⟩ := hsole (by rw [hstage]; rfl)
    have hget := SortedMap.get_insert_self s.delayidFinalizeddelayedevent c.delayId finalized
    have hrecord : ∀ {q : Phase}, (s.view c.delayId).In q → q.finalized = false → q.listed = false → q ≠ .stored →
        q.row = some true → q.drawn = true → q.timeline (s.view c.delayId).finalized = finalized.eventId.toList →
        q.Next .recorded → (s.view c.delayId).Evolves
          ({ s.setStage k c (.removeRow (finalized.event.userId, finalized.event.roomId) result) with
            delayidFinalizeddelayedevent :=
              s.delayidFinalizeddelayedevent.insert c.delayId finalized }.view c.delayId) q := by
      intro q hq hfin hlisted hstored hrow' hdrawn htimeline hnext
      refine ⟨.recorded, ⟨howners _, hq.listed.trans hlisted, fun hl => absurd (hq.loading hl).1 hstored,
        hq.drawn.trans hdrawn, fun present hp => hq.row present (hrow'.trans hp), congrArg Option.isSome hget, ?_⟩,
        hnext, ⟨fun f hf => ?_, List.prefix_rfl⟩⟩
      · refine (hq.timeline.trans htimeline).trans ?_
        exact (congrArg (fun f => (f.bind (·.eventId)).toList) hget).symm
      · have hsome := hq.finalized.trans hfin
        rw [Option.mem_def.mp hf] at hsome
        cases hsome
    cases hevent : finalized.eventId with
    | none =>
      rw [hevent] at h
      exact hrecord h rfl rfl (by simp) rfl rfl (by rw [hevent]; rfl) .record
    | some eventId =>
      rw [hevent] at h
      exact hrecord h rfl rfl (by simp) rfl rfl (by rw [hevent]; rfl) (.recordSent eventId)
  | removeRow relation result =>
    simp only [proceed, hstage, Option.some.injEq] at hs
    subst hs
    obtain ⟨rfl, howners⟩ := hsole (by rw [hstage]; rfl)
    refine ⟨.closed, ⟨howners _, h.listed, fun hl => absurd (h.loading hl).1 (by simp), h.drawn, ?_, h.finalized,
      h.timeline⟩, .close, ⟨fun f hf => hf, List.prefix_rfl⟩⟩
    rintro _ ⟨⟩
    exact congrArg Option.isSome (SortedMap.get_remove_self _ _)
  | delRelation relation result =>
    simp only [proceed, hstage, Option.some.injEq] at hs
    subst hs
    exact hother (.finished result) (by rw [hstage]; rfl) rfl
  | check action =>
    simp only [proceed, hstage] at hs
    split at hs
    · cases hs
      exact hother _ (by rw [hstage]; rfl) rfl
    · cases hs
      exact hother _ (by rw [hstage]; rfl) rfl
  | checkAgain action =>
    simp only [proceed, hstage, Option.some.injEq] at hs
    subst hs
    exact hother _ (by rw [hstage]; rfl) rfl
  | finished result => simp only [proceed, hstage, reduceCtorEq] at hs

end World

/-! ## Runs -/

/-- The timeline has answered or the end is recorded, and the row is still there. -/
def Stage.closing : Stage → Bool
  | .record finalized _ => finalized.eventId.isSome
  | .removeRow .. => true
  | _ => false

/-- Calls begin after the worker has filled the set, ids are fresh, a restart finds its row
still there, and nothing ends while it closes an event. -/
def careful : Action → World → Bool
  | .queue delayId _, s => s.loaded && decide (delayId ∉ s.drawn)
  | .update .., s => s.loaded
  | .proceed k _ _, s => s.calls[k]?.all fun c =>
      match c.stage with
      | .putRestarted _ => (s.delayidScheduleddelayedevent.get c.delayId).isSome
      | _ => true
  | .drop k, s => s.calls[k]?.all fun c => !c.stage.closing
  | .crash, s => s.calls.all fun c => !c.stage.closing
  | _, _ => true

/-- Each id is in a phase, and nothing runs before the set is filled. -/
structure Inv (s : World) : Prop where
  phase : ∀ x, ∃ p, (s.view x).In p
  start : s.loaded = false → s.calls = [] ∧ s.scheduledEvents = ∅

theorem inv_new : Inv .new where
  phase x := by
    refine ⟨.unused, ⟨rfl, rfl, fun h => ?_, rfl, fun present h => ?_, rfl, rfl⟩⟩
    · cases h
    · cases h
      rfl
  start _ := ⟨rfl, rfl⟩

theorem View.In.leave {v v' : View} {p : Phase} (h : v.In p)
    (hopen : ∀ q ∈ v.owners, q ≠ .recorded ∧ ∀ e, q ≠ .sent e)
    (howners : v'.owners = []) (hlisted : v'.listed = false) (hloading : v'.loading = true → v.loading = true)
    (hdrawn : v'.drawn = v.drawn) (hrow : v'.row = v.row) (hfinalized : v'.finalized = v.finalized)
    (htimeline : v'.timeline = v.timeline) : v.Evolves v' p := by
  have hkept : v.Kept v' := ⟨fun f hf => hfinalized ▸ hf, htimeline ▸ List.prefix_rfl⟩
  have hstay : p.owners = [] → p.listed = false → v.Evolves v' p := fun ho hl =>
    ⟨p, ⟨howners.trans ho.symm, hlisted.trans hl.symm, fun hload => hrow ▸ h.loading (hloading hload),
      hdrawn.trans h.drawn, hrow ▸ h.row, hfinalized ▸ h.finalized, by rw [htimeline, hfinalized, h.timeline]⟩,
      .stay p, hkept⟩
  have hstored : p.Next .stored → p.drawn = true → p.finalized = false → p.timeline v.finalized = [] →
      v.Evolves v' p := fun hnext hd hf ht =>
    ⟨.stored, ⟨howners, hlisted, fun hload => ⟨rfl, hrow ▸ (h.loading (hloading hload)).2⟩,
      hdrawn.trans (h.drawn.trans hd), fun _ hp => absurd hp (Option.not_mem_none _),
      hfinalized ▸ h.finalized.trans hf, htimeline.trans (h.timeline.trans ht)⟩, hnext, hkept⟩
  have howner : ∀ q ∈ p.owners, q ≠ .recorded ∧ ∀ e, q ≠ .sent e := h.owners ▸ hopen
  cases p with
  | unused | closed | stored => exact hstay rfl rfl
  | entering put => exact hstored (.abandon put) rfl rfl rfl
  | waiting => exact hstored .unlist rfl rfl rfl
  | held => exact hstored .release rfl rfl rfl
  | sent eventId => exact absurd rfl ((howner _ (List.mem_singleton_self _)).2 eventId)
  | recorded => exact absurd rfl (howner _ (List.mem_singleton_self _)).1

theorem closing_iff {stage : Stage} {q : Phase} (hq : stage.owns = some q) (h : stage.closing = false) :
    q ≠ .recorded ∧ ∀ e, q ≠ .sent e := by
  cases stage with
  | removeRow relation result => cases h
  | record finalized result =>
    have hnone : finalized.eventId = none := by simpa [Stage.closing] using h
    simp only [Stage.owns, hnone, Option.elim_none, Option.some.injEq] at hq
    subst hq
    exact ⟨by simp, by simp⟩
  | putRow event | putRelation event | enlist submissionTime | act event action leave timestamp | relist error =>
    cases hq
    exact ⟨by simp, by simp⟩
  | _ => cases hq

section
variable {a : Action} {s s' : World}

theorem view_append (s : World) (c : Call) (x : String) :
    ({ s with calls := s.calls ++ [c] }.view x).owners = (s.view x).owners ++ (c.owns x).toList := by
  simp only [World.view, List.filterMap_append, List.filterMap_cons, List.filterMap_nil]
  cases c.owns x <;> rfl

theorem view_append_of_none {c : Call} (hc : c.stage.owns = none) (x : String) :
    { s with calls := s.calls ++ [c] }.view x = s.view x := by
  have hnone : c.owns x = none := by
    unfold Call.owns
    split
    · exact hc
    · rfl
  refine congrArg (fun owners => { s.view x with owners := owners }) ((view_append s c x).trans ?_)
  rw [hnone, Option.toList_none, List.append_nil]
  rfl

theorem Inv.resting (h : Inv s) (hs : s.loaded = false) {x : String} {p : Phase} (hp : (s.view x).In p) :
    p.owners = [] ∧ p.listed = false := by
  obtain ⟨hcalls, hlisted⟩ := h.start hs
  refine ⟨hp.owners.symm.trans ?_, hp.listed.symm.trans ?_⟩
  · simp only [World.view, hcalls, List.filterMap_nil]
  · simp only [World.view, hlisted, Finset.notMem_empty, decide_false]

/-- Every step takes each event along its phases. -/
theorem Inv.evolves (h : Inv s) (hok : careful a s = true) (hs : step a s = some s') {x : String} {p : Phase}
    (hp : (s.view x).In p) : (s.view x).Evolves (s'.view x) p := by
  have hsame : s'.view x = s.view x → (s.view x).Evolves (s'.view x) p := fun heq => heq ▸ hp.evolves
  cases a with
  | proceed k now sent =>
    obtain ⟨c, hk, hs⟩ := Option.bind_eq_some_iff.mp hs
    by_cases hx : c.delayId = x
    · subst hx
      refine World.proceed_evolves hk hs (fun event hstage => ?_) hp
      simp only [careful, hk, Option.all_some, hstage] at hok
      exact hok
    · rw [World.view_proceed_of_ne hk hs hx]
      exact hp.evolves
  | update delayId action =>
    cases hs
    rw [view_append_of_none rfl]
    exact hp.evolves
  | queue delayId event =>
    cases hs
    have howners := view_append s ⟨delayId, .queue, .putRow event⟩ x
    simp only [careful, Bool.and_eq_true, decide_eq_true_eq] at hok
    by_cases hx : delayId = x
    · subst hx
      have hunused : p = .unused := by
        have hdrawn := hp.drawn.symm.trans (decide_eq_false hok.2)
        cases p with
        | unused => rfl
        | _ => cases hdrawn
      subst hunused
      rw [hp.owners] at howners
      refine ⟨.entering false, ⟨howners.trans (congrArg Option.toList (if_pos rfl)), hp.listed,
        fun hl => absurd (hp.loading hl).1 (by simp), decide_eq_true List.mem_cons_self, hp.row, hp.finalized,
        hp.timeline⟩, .draw, ⟨fun f hf => hf, List.prefix_rfl⟩⟩
    · have hother : World.view { s with
          calls := s.calls ++ [⟨delayId, .queue, .putRow event⟩]
          drawn := delayId :: s.drawn } x = s.view x := by
        refine World.view_eq ?_ .rfl rfl (by simp [Ne.symm hx]) rfl rfl rfl
        refine howners.trans ?_
        rw [Call.owns, if_neg hx, Option.toList_none, List.append_nil]
        rfl
      rw [hother]
      exact hp.evolves
  | drop k =>
    simp only [step] at hs
    split at hs
    · cases hs
    · rename_i c hsubmit hk
      cases hs
      simp only [careful, hk, Option.all_some, Bool.not_eq_true'] at hok
      by_cases hx : c.delayId = x
      · subst hx
        cases hq : c.stage.owns with
        | none =>
          rw [World.view_setStage_of_none hk hq rfl]
          exact hp.evolves
        | some q =>
          have hmem := World.owner_mem hk hq
          have hsole := hp.owners_eq hmem
          refine hp.leave (fun q' hq' => ?_) (World.owners_setStage hk (by rw [hsole, hq]; rfl))
            ?_ id rfl rfl rfl rfl
          · rw [hsole, List.mem_singleton] at hq'
            exact hq' ▸ closing_iff hq hok
          · refine hp.listed.trans ?_
            rw [hp.owners] at hmem
            cases p <;> first | rfl | cases hmem
      · rw [World.view_setStage_of_ne hk hx]
        exact hp.evolves
    · cases hs
  | load =>
    simp only [step] at hs
    split at hs
    · rename_i hworker
      cases hs
      obtain ⟨howners, hlisted⟩ := h.resting (by rw [World.loaded, hworker]) hp
      refine ⟨p, ⟨hp.owners, hp.listed, fun hload => ?_, hp.drawn, hp.row, hp.finalized, hp.timeline⟩, .stay p,
        ⟨fun f hf => hf, List.prefix_rfl⟩⟩
      have hrow : (s.view x).row.isSome = true := SortedMap.get_isSome_iff.mpr (of_decide_eq_true hload)
      have hnot : some false ≠ p.row := fun heq => by simpa [hrow] using hp.row false heq.symm
      refine ⟨?_, hrow⟩
      cases p with
      | stored => rfl
      | unused | closed => exact absurd rfl hnot
      | waiting => cases hlisted
      | entering put | held | sent eventId | recorded => cases howners
    · cases hs
  | enroll =>
    simp only [step] at hs
    split at hs
    · rename_i loadedEvents hworker
      cases hs
      obtain ⟨howners, hlisted⟩ := h.resting (by rw [World.loaded, hworker]) hp
      have hnone : x ∉ s.scheduledEvents := of_decide_eq_false (hp.listed.trans hlisted)
      by_cases hload : x ∈ loadedEvents
      · obtain ⟨rfl, hrow⟩ := hp.loading (decide_eq_true (by rw [hworker]; exact hload))
        refine ⟨.waiting, ⟨hp.owners, ?_, fun hl => ?_, hp.drawn, fun present hpr => ?_, hp.finalized, hp.timeline⟩,
          .load, ⟨fun f hf => hf, List.prefix_rfl⟩⟩
        · exact decide_eq_true (Finset.mem_union_right _ (List.mem_toFinset.mpr hload))
        · cases hl
        · cases hpr
          exact hrow
      · refine ⟨p, ⟨hp.owners, ?_, fun hl => ?_, hp.drawn, hp.row, hp.finalized, hp.timeline⟩, .stay p,
          ⟨fun f hf => hf, List.prefix_rfl⟩⟩
        · refine Eq.trans (decide_eq_false ?_) hlisted.symm
          rw [Finset.mem_union, List.mem_toFinset, not_or]
          exact ⟨hnone, hload⟩
        · cases hl
    · cases hs
  | crash =>
    cases hs
    refine hp.leave (fun q hq => ?_) rfl rfl (fun hl => ?_) rfl rfl rfl rfl
    · obtain ⟨c, hc, howns⟩ := List.mem_filterMap.mp hq
      have hclosing := List.all_eq_true.mp hok c hc
      rw [Bool.not_eq_true'] at hclosing
      rw [Call.owns] at howns
      split at howns
      · exact closing_iff howns hclosing
      · cases howns
    · cases hl
  | receive =>
    simp only [step] at hs
    split at hs
    · cases hs
      exact hsame (World.view_eq rfl .rfl rfl .rfl rfl rfl rfl)
    · cases hs
  | pop =>
    simp only [step] at hs
    split at hs
    · rename_i hworker _
      cases hs
      exact hsame (World.view_eq rfl .rfl (by rw [hworker]; rfl) .rfl rfl rfl rfl)
    · cases hs
  | push =>
    simp only [step] at hs
    split at hs
    · rename_i hworker
      cases hs
      exact hsame (World.view_eq rfl .rfl (by rw [hworker]; rfl) .rfl rfl rfl rfl)
    · cases hs
  | resume =>
    simp only [step] at hs
    split at hs
    · rename_i hworker
      split at hs
      · cases hs
        exact hsame (World.view_eq rfl .rfl (by rw [hworker]; rfl) .rfl rfl rfl rfl)
      · cases hs
    · cases hs
  | submit now =>
    simp only [step] at hs
    split at hs
    · rename_i delayId hworker
      split at hs
      · cases hs
        exact hsame (World.view_eq rfl .rfl (by rw [hworker]; rfl) .rfl rfl rfl rfl)
      · split at hs
        · rename_i event _ _
          cases hs
          have hcalls : World.view { s with calls := s.calls ++ [⟨delayId, .submit, .claim event .send false⟩] } x =
              s.view x := view_append_of_none rfl x
          refine hsame (World.view_eq (congrArg View.owners hcalls) .rfl ?_ .rfl rfl rfl rfl)
          rw [hworker]
          rfl
        · cases hs
          exact hsame (World.view_eq rfl .rfl (by rw [hworker]; rfl) .rfl rfl rfl rfl)
    · cases hs

theorem Inv.step (h : Inv s) (hok : careful a s = true) (hs : step a s = some s') : Inv s' where
  phase x := by
    obtain ⟨p, hp⟩ := h.phase x
    obtain ⟨p', hp', -⟩ := h.evolves hok hs hp
    exact ⟨p', hp'⟩
  start hload := by
    have hnone : ∀ {k : Nat} {c : Call}, s.loaded = false → s.calls[k]? ≠ some c := fun hl hk => by
      rw [(h.start hl).1] at hk
      cases hk
    cases a with
    | queue delayId event =>
      cases hs
      simp only [careful, Bool.and_eq_true] at hok
      exact absurd hok.1 (Bool.eq_false_iff.mp hload)
    | update delayId action =>
      cases hs
      exact absurd hok (Bool.eq_false_iff.mp hload)
    | proceed k now sent =>
      obtain ⟨c, hk, hs⟩ := Option.bind_eq_some_iff.mp hs
      refine absurd hk (hnone ?_)
      rw [← hload, World.loaded, World.loaded, World.worker_proceed hs]
    | drop k =>
      simp only [DelayedEvents.step] at hs
      split at hs
      · cases hs
      · rename_i hk
        cases hs
        exact absurd hk (hnone hload)
      · cases hs
    | load =>
      simp only [DelayedEvents.step] at hs
      split at hs
      · rename_i hworker
        cases hs
        exact h.start (by rw [World.loaded, hworker])
      · cases hs
    | crash =>
      cases hs
      exact ⟨rfl, rfl⟩
    | receive =>
      simp only [DelayedEvents.step] at hs
      split at hs
      · rename_i hworker _
        cases hs
        rw [World.loaded, hworker] at hload
        cases hload
      · cases hs
    | enroll | pop | push | resume | submit now =>
      simp only [DelayedEvents.step] at hs
      repeat' split at hs
      all_goals first | cases hs; cases hload | cases hs

end

end Congruent.DelayedEvents
