import Congruent.Store
import Congruent.Machine

/-!
# Verdicts of events (`mtxdb/src/verdicts.rs`)

Many updates at a time, each a read, a change and a commit that expects the version it
read, tried again when that fails. The order in which the updates are committed is kept
beside the store.
-/

namespace Congruent.Verdicts

open Store

/-- The verdicts and their codec. -/
structure Codec (V : Type) where
  default : V
  isEmpty : V → Bool
  encode : Bytes → V → Except StorageError Bytes
  decode : Bytes → Except StorageError (Bytes × V)
  isEmpty_iff : ∀ v, isEmpty v = true ↔ v = default
  decode_encode : ∀ {id v bytes}, encode id v = .ok bytes → bytes ≠ [] ∧ decode bytes = .ok (id, v)

/-- The ids of the records; two events may have the same. -/
structure Places (Id : Type) where
  eventRecordId : Bytes → Id
  eventVerdictCollectionId : Id → Id

/-- Where an update stands. -/
inductive Phase (Id V : Type) where
  | start (attempts : Nat)
  | versioned (attempts version : Nat)
  | changed (attempts version : Nat) (verdict : V)
  | staged (attempts : Nat) (tx : Transaction Id)
  | done (result : Except StorageError Unit)

structure Update (Id V : Type) where
  eventId : Bytes
  change : V → V
  phase : Phase Id V

def Phase.isDone {Id V : Type} : Phase Id V → Bool
  | .done _ => true
  | _ => false

section
variable {Id : Type} [DecidableEq Id] {E : Engine Id} {V : Type} (codec : Codec V) (places : Places Id)

structure State (E : Engine Id) (V : Type) where
  db : E.Db
  updates : List (Update Id V)
  /-- The updates that were committed, in this order. -/
  log : List Nat

def record (eventId : Bytes) : Record Id :=
  let node := places.eventRecordId eventId
  ⟨.eventDag, places.eventVerdictCollectionId node, node⟩

/-- What `get` answers. -/
def get (eventId : Bytes) (bytes : Option Bytes) : Except StorageError (Option V) :=
  bytes.elim (.ok none) fun bytes => (codec.decode bytes).map fun p => if p.1 = eventId then some p.2 else none

/-- The verdict that an update starts from. -/
def current (eventId : Bytes) : Option Bytes → Except StorageError V
  | some bytes => do
    let stored ← codec.decode bytes
    if stored.1 ≠ eventId then .error (.corrupt "event record id collision in verdicts") else .ok stored.2
  | none => .ok codec.default

/-- Stages a verdict; `existing` is the record found. -/
def stage (tx : Transaction Id) (eventId : Bytes) (verdict : V) (existing : Option Bytes) :
    Except StorageError (Transaction Id) := do
  let _ ← current codec eventId existing
  if codec.isEmpty verdict then .ok (tx.remove (record places eventId))
  else do
    let bytes ← codec.encode eventId verdict
    .ok (tx.put (record places eventId) bytes)

namespace State

def version (s : State E V) (eventId : Bytes) : Nat :=
  E.version s.db .eventDag (places.eventVerdictCollectionId (places.eventRecordId eventId))

/-- The next step of an update, unless the store fails. -/
def next (s : State E V) (u : Update Id V) : Phase Id V × Option E.Db :=
  match u.phase with
  | .start attempts => (.versioned attempts (s.version places u.eventId), none)
  | .versioned attempts version =>
    match current codec u.eventId (E.get s.db (record places u.eventId)) with
    | .ok verdict => (.changed attempts version (u.change verdict), none)
    | .error e => (.done (.error e), none)
  | .changed attempts version verdict =>
    let collection := places.eventVerdictCollectionId (places.eventRecordId u.eventId)
    let tx := Transaction.begin.expectCollectionVersion .eventDag collection version
    match stage codec places tx u.eventId verdict (E.get s.db (record places u.eventId)) with
    | .ok tx => (.staged attempts tx, none)
    | .error e => (.done (.error e), none)
  | .staged attempts tx =>
    match E.commit s.db tx with
    | .ok db => (.done (.ok ()), some db)
    | .error .staleRead => if attempts < 3 then (.start (attempts + 1), none) else (.done (.error .staleRead), none)
    | .error e => (.done (.error e), none)
  | .done result => (.done result, none)

def fail (u : Update Id V) (e : StorageError) : Phase Id V :=
  match u.phase, e with
  | .staged attempts _, .staleRead => if attempts < 3 then .start (attempts + 1) else .done (.error .staleRead)
  | .done result, _ => .done result
  | _, e => .done (.error e)

end State

inductive Action (V : Type) where
  | call (eventId : Bytes) (change : V → V)
  | run (i : Nat) (fault : Option StorageError)

def step : Action V → State E V → Option (State E V)
  | .call eventId change, s => some { s with updates := s.updates ++ [⟨eventId, change, .start 0⟩] }
  | .run i fault, s => do
    let u ← s.updates[i]?
    if u.phase.isDone then none
    else
      match fault with
      | some e => some { s with updates := s.updates.set i { u with phase := State.fail u e } }
      | none =>
        let r := s.next codec places u
        let s := { s with updates := s.updates.set i { u with phase := r.1 } }
        match r.2 with
        | some db => some { s with db := db, log := s.log ++ [i] }
        | none => some s

def State.folded (s : State E V) (eventId : Bytes) : V :=
  s.log.foldl (fun v i => (s.updates[i]?).elim v fun u => if u.eventId = eventId then u.change v else v)
    codec.default

/-! ## The invariant -/

def Own (s : State E V) (eventId : Bytes) : Prop :=
  ∀ bytes, E.get s.db (record places eventId) = some bytes → ∃ v, codec.decode bytes = .ok (eventId, v)

def Writes (tx : Transaction Id) (eventId : Bytes) (verdict : V) : Prop :=
  (codec.isEmpty verdict = true ∧ tx.staged = [(record places eventId, none)]) ∨
    ∃ bytes, codec.isEmpty verdict = false ∧ codec.encode eventId verdict = .ok bytes ∧
      tx.staged = [(record places eventId, some bytes)]

def OnTime (s : State E V) (u : Update Id V) : Prop :=
  match u.phase with
  | .start _ => True
  | .versioned _ version => version ≤ s.version places u.eventId
  | .changed _ version verdict => version ≤ s.version places u.eventId ∧
    (s.version places u.eventId = version → verdict = u.change (s.folded codec u.eventId))
  | .staged _ tx => ∃ version verdict, version ≤ s.version places u.eventId ∧
    tx.expected = [((.eventDag, places.eventVerdictCollectionId (places.eventRecordId u.eventId)), version)] ∧
    Writes codec places tx u.eventId verdict ∧
    (s.version places u.eventId = version →
      verdict = u.change (s.folded codec u.eventId) ∧ Own codec places s u.eventId)
  | .done _ => True

structure Sound (s : State E V) : Prop where
  nodup : s.log.Nodup
  committed : ∀ i, i ∈ s.log ↔ ∃ u, s.updates[i]? = some u ∧ u.phase = .done (.ok ())
  stored : ∀ eventId, get codec eventId (E.get s.db (record places eventId)) =
    .ok (if codec.isEmpty (s.folded codec eventId) then none else some (s.folded codec eventId))
  onTime : ∀ u ∈ s.updates, OnTime codec places s u

variable {codec places} {s s' : State E V} {u : Update Id V} {i : Nat} {eventId : Bytes}

theorem Sound.current_eq (h : Sound codec places s) {v : V}
    (hc : current codec eventId (E.get s.db (record places eventId)) = .ok v) :
    v = s.folded codec eventId ∧ Own codec places s eventId := by
  have hs := h.stored eventId
  cases hb : E.get s.db (record places eventId) with
  | none =>
    rw [hb] at hc hs
    cases hc
    refine ⟨?_, fun bytes hbytes => ?_⟩
    · simp only [get, Option.elim_none, Except.ok.injEq] at hs
      split at hs
      · rename_i hempty
        exact ((codec.isEmpty_iff _).mp hempty).symm
      · cases hs
    · rw [hb] at hbytes
      cases hbytes
  | some bytes =>
    rw [hb] at hc hs
    cases hd : codec.decode bytes with
    | error e =>
      rw [current, hd] at hc
      cases hc
    | ok stored =>
      obtain ⟨id, w⟩ := stored
      simp only [current, hd, bind, Except.bind] at hc
      split at hc
      · cases hc
      · rename_i hid
        have hid : id = eventId := by simpa using hid
        subst hid
        cases hc
        refine ⟨?_, fun bytes' hbytes => ⟨v, ?_⟩⟩
        · simp only [get, Option.elim_some, hd, Except.map, if_true, Except.ok.injEq] at hs
          split at hs
          · cases hs
          · exact Option.some.inj hs
        · rw [hb, Option.some.injEq] at hbytes
          rw [← hbytes, hd]

theorem folded_eq_of_get {f f' : V} {bytes : Option Bytes}
    (h : get codec eventId bytes = .ok (if codec.isEmpty f then none else some f))
    (h' : get codec eventId bytes = .ok (if codec.isEmpty f' then none else some f')) : f = f' := by
  rw [h, Except.ok.injEq] at h'
  split at h'
  · rename_i hf
    split at h'
    · rename_i hf'
      rw [(codec.isEmpty_iff f).mp hf, (codec.isEmpty_iff f').mp hf']
    · cases h'
  · split at h'
    · cases h'
    · exact Option.some.inj h'

theorem folded_congr (hlog : s'.log = s.log)
    (hsame : ∀ i ∈ s.log, (s'.updates[i]?).map (fun u => (u.eventId, u.change)) =
      (s.updates[i]?).map fun u => (u.eventId, u.change)) (eventId : Bytes) :
    s'.folded codec eventId = s.folded codec eventId := by
  unfold State.folded
  rw [hlog]
  refine List.foldl_ext _ _ _ fun v i hi => ?_
  have hi := hsame i hi
  cases hu : s.updates[i]? with
  | none =>
    rw [hu, Option.map_none, Option.map_eq_none_iff] at hi
    rw [hi]
  | some u =>
    rw [hu, Option.map_some] at hi
    obtain ⟨u', hu', heq⟩ := Option.map_eq_some_iff.mp hi
    rw [Prod.mk.injEq] at heq
    rw [hu', Option.elim_some, Option.elim_some, heq.1, heq.2]

theorem map_set_phase (hi : s.updates[i]? = some u) (phase : Phase Id V) (j : Nat) :
    ((s.updates.set i { u with phase := phase })[j]?).map (fun u => (u.eventId, u.change)) =
      (s.updates[j]?).map fun u => (u.eventId, u.change) := by
  rw [getElem?_set_of_some hi]
  by_cases hji : j = i
  · rw [if_pos hji, hji, hi]
    rfl
  · rw [if_neg hji]

/-- A later state: an event whose version has not changed has its record and its verdict. -/
structure Later (codec : Codec V) (places : Places Id) (s s' : State E V) : Prop where
  version_le : ∀ id, s.version places id ≤ s'.version places id
  same : ∀ id, s'.version places id = s.version places id →
    s'.folded codec id = s.folded codec id ∧ E.get s'.db (record places id) = E.get s.db (record places id)

theorem Later.of_same (hdb : s'.db = s.db) (hfolded : ∀ id, s'.folded codec id = s.folded codec id) :
    Later codec places s s' := by
  refine ⟨fun id => ?_, fun id _ => ⟨hfolded id, by rw [hdb]⟩⟩
  exact Nat.le_of_eq (by rw [State.version, State.version, hdb])

theorem Later.onTime (h : Later codec places s s') (hu : OnTime codec places s u) : OnTime codec places s' u := by
  have hle := h.version_le u.eventId
  -- a version that has not been passed is still the one before
  have hback : ∀ version, version ≤ s.version places u.eventId → s'.version places u.eventId = version →
      s'.version places u.eventId = s.version places u.eventId := by
    intro version hv heq
    omega
  unfold OnTime at hu ⊢
  cases hphase : u.phase with
  | start _ => trivial
  | done _ => trivial
  | versioned _ version =>
    rw [hphase] at hu
    exact Nat.le_trans hu hle
  | changed _ version verdict =>
    rw [hphase] at hu
    refine ⟨Nat.le_trans hu.1 hle, fun heq => ?_⟩
    have hsame := hback version hu.1 heq
    rw [(h.same u.eventId hsame).1]
    exact hu.2 (hsame.symm.trans heq)
  | staged _ tx =>
    rw [hphase] at hu
    obtain ⟨version, verdict, hv, hexpected, hw, hnow⟩ := hu
    refine ⟨version, verdict, Nat.le_trans hv hle, hexpected, hw, fun heq => ?_⟩
    have hsame := hback version hv heq
    obtain ⟨hfolded, hget⟩ := h.same u.eventId hsame
    obtain ⟨hverdict, hown⟩ := hnow (hsame.symm.trans heq)
    refine ⟨by rw [hfolded, hverdict], fun bytes hbytes => ?_⟩
    exact hown bytes (by rw [← hget, hbytes])

theorem Sound.setPhase (h : Sound codec places s) (hi : s.updates[i]? = some u) (hu : u.phase ≠ .done (.ok ()))
    {phase : Phase Id V} (hphase : phase ≠ .done (.ok ()))
    (hnew : OnTime codec places s { u with phase := phase }) :
    Sound codec places { s with updates := s.updates.set i { u with phase := phase } } := by
  have hfolded : ∀ id, State.folded codec { s with updates := s.updates.set i { u with phase := phase } } id =
      s.folded codec id := by
    intro id
    apply folded_congr
    · rfl
    · exact fun j _ => map_set_phase hi phase j
  have hlater : Later codec places s { s with updates := s.updates.set i { u with phase := phase } } :=
    .of_same rfl hfolded
  refine ⟨h.nodup, fun j => ?_, fun id => ?_, fun u' hu' => ?_⟩
  · rw [h.committed j]
    simp only [getElem?_set_of_some hi]
    by_cases hji : j = i
    · simp [hji, hi, hu, hphase]
    · simp [hji]
  · rw [hfolded]
    exact h.stored id
  · rcases mem_set_of_some hi hu' with rfl | ⟨j, -, hj⟩
    · exact hlater.onTime hnew
    · exact hlater.onTime (h.onTime u' (List.mem_of_getElem? hj))

theorem Sound.call (h : Sound codec places s) (id : Bytes) (change : V → V) :
    Sound codec places { s with updates := s.updates ++ [⟨id, change, .start 0⟩] } := by
  have hold : ∀ j ∈ s.log, (s.updates ++ [⟨id, change, .start 0⟩])[j]? = s.updates[j]? := by
    intro j hj
    obtain ⟨u, hu, -⟩ := (h.committed j).mp hj
    rw [List.getElem?_append_left (List.getElem?_eq_some_iff.mp hu).1]
  have hfolded : ∀ e, State.folded codec { s with updates := s.updates ++ [⟨id, change, .start 0⟩] } e =
      s.folded codec e := by
    intro e
    apply folded_congr
    · rfl
    · exact fun j hj => congrArg _ (hold j hj)
  have hlater : Later codec places s { s with updates := s.updates ++ [⟨id, change, .start 0⟩] } :=
    .of_same rfl hfolded
  refine ⟨h.nodup, fun j => ?_, fun e => ?_, fun u' hu' => ?_⟩
  · rw [h.committed j]
    constructor
    · rintro ⟨u, hu, hdone⟩
      exact ⟨u, by rw [List.getElem?_append_left (List.getElem?_eq_some_iff.mp hu).1, hu], hdone⟩
    · rintro ⟨u, hu, hdone⟩
      rw [List.getElem?_append] at hu
      split at hu
      · exact ⟨u, hu, hdone⟩
      · rw [List.getElem?_singleton] at hu
        split at hu
        · cases hu
          cases hdone
        · cases hu
  · rw [hfolded]
    exact h.stored e
  · rcases List.mem_append.mp hu' with hu' | hu'
    · exact hlater.onTime (h.onTime u' hu')
    · rw [List.mem_singleton.mp hu']
      trivial

/-- The state after a commit of update `i`. -/
def State.committed (s : State E V) (i : Nat) (u : Update Id V) (db : E.Db) : State E V :=
  ⟨db, s.updates.set i { u with phase := .done (.ok ()) }, s.log ++ [i]⟩

theorem folded_committed (hi : s.updates[i]? = some u) (db : E.Db) (id : Bytes) :
    (s.committed i u db).folded codec id =
      if u.eventId = id then u.change (s.folded codec id) else s.folded codec id := by
  have hfold : (s.committed i u db).folded codec id = (fun v j =>
      ((s.updates.set i { u with phase := .done (.ok ()) })[j]?).elim v fun u =>
        if u.eventId = id then u.change v else v)
      (State.folded codec { s with updates := s.updates.set i { u with phase := .done (.ok ()) } } id) i := by
    unfold State.folded State.committed
    rw [List.foldl_append, List.foldl_cons, List.foldl_nil]
  have hrest : State.folded codec { s with updates := s.updates.set i { u with phase := .done (.ok ()) } } id =
      s.folded codec id := by
    apply folded_congr
    · rfl
    · exact fun j _ => map_set_phase hi _ j
  rw [hfold, hrest]
  simp only [getElem?_set_of_some hi, if_true, Option.elim_some]

theorem Writes.record_committed {db db' : E.Db} {tx : Transaction Id} {verdict : V}
    (hw : Writes codec places tx eventId verdict) (hcommit : E.commit db tx = .ok db') :
    (codec.isEmpty verdict = true ∧ E.get db' (record places eventId) = none) ∨
      (codec.isEmpty verdict = false ∧ ∃ bytes, E.get db' (record places eventId) = some bytes ∧
        codec.decode bytes = .ok (eventId, verdict)) := by
  rcases hw with ⟨hempty, hstaged⟩ | ⟨bytes, hempty, hencode, hstaged⟩
  · exact .inl ⟨hempty, E.commit_remove hcommit (by simp [hstaged])⟩
  · obtain ⟨hne, hdecode⟩ := codec.decode_encode hencode
    exact .inr ⟨hempty, bytes, E.commit_put hcommit (by simp [hstaged]) hne, hdecode⟩

theorem stored_committed (h : Sound codec places s) (hi : s.updates[i]? = some u)
    {tx : Transaction Id} {verdict : V}
    {db : E.Db} (hcommit : E.commit s.db tx = .ok db) (hw : Writes codec places tx u.eventId verdict)
    (hverdict : verdict = u.change (s.folded codec u.eventId)) (hown : Own codec places s u.eventId) (id : Bytes) :
    get codec id (E.get db (record places id)) =
      .ok (if codec.isEmpty ((s.committed i u db).folded codec id) then none
        else some ((s.committed i u db).folded codec id)) := by
  rw [folded_committed hi]
  -- another event keeps its verdict, also when it has the same record
  by_cases hid : u.eventId = id
  · subst hid
    rw [if_pos rfl, ← hverdict]
    rcases hw.record_committed hcommit with ⟨hempty, hget⟩ | ⟨hempty, bytes, hget, hdecode⟩
    · rw [hget, hempty]
      rfl
    · rw [hget, hempty]
      simp [get, hdecode, Except.map]
  · rw [if_neg hid, ← h.stored id]
    by_cases hrecord : record places id = record places u.eventId
    · -- the record is that of the update's event, before and after
      have hnone : ∀ bytes, (∀ b, bytes = some b → ∃ v, codec.decode b = .ok (u.eventId, v)) →
          get codec id bytes = .ok none := by
        intro bytes hb
        cases bytes with
        | none => rfl
        | some b =>
          obtain ⟨v, hv⟩ := hb b rfl
          simp [get, hv, Except.map, hid]
      rw [hrecord, hnone _ hown]
      refine hnone _ fun b hb => ?_
      rcases hw.record_committed hcommit with ⟨-, hget⟩ | ⟨-, bytes, hget, hdecode⟩
      · rw [hget] at hb
        cases hb
      · rw [hget] at hb
        cases hb
        exact ⟨verdict, hdecode⟩
    · have hlookup : tx.staged.lookup (record places id) = none := by
        have hbeq : (record places id == record places u.eventId) = false := by simpa using hrecord
        rcases hw with ⟨-, hstaged⟩ | ⟨bytes, -, -, hstaged⟩
        · simp [hstaged, List.lookup_cons, hbeq]
        · simp [hstaged, List.lookup_cons, hbeq]
      rw [E.commit_other hcommit hlookup]

theorem Sound.commit (h : Sound codec places s) (hi : s.updates[i]? = some u) {attempts : Nat} {tx : Transaction Id}
    (hphase : u.phase = .staged attempts tx) {db : E.Db} (hcommit : E.commit s.db tx = .ok db) :
    Sound codec places (s.committed i u db) := by
  have htime := h.onTime u (List.mem_of_getElem? hi)
  rw [OnTime, hphase] at htime
  obtain ⟨version, verdict, -, hexpected, hw, hnow⟩ := htime
  have hversion : s.version places u.eventId = version :=
    E.commit_expected hcommit
      ((.eventDag, places.eventVerdictCollectionId (places.eventRecordId u.eventId)), version)
      (by simp [hexpected])
  obtain ⟨hverdict, hown⟩ := hnow hversion
  have hstored := stored_committed h hi hcommit hw hverdict hown
  have hnot : i ∉ s.log := by
    intro hmem
    obtain ⟨u', hu', hdone⟩ := (h.committed i).mp hmem
    rw [hi, Option.some.injEq] at hu'
    rw [← hu', hphase] at hdone
    cases hdone
  -- an unchanged version means unchanged records, and these give the verdicts
  have hlater : Later codec places s (s.committed i u db) := by
    refine ⟨fun id => E.version_le hcommit, fun id heq => ?_⟩
    have hget : E.get db (record places id) = E.get s.db (record places id) := E.version_eq hcommit heq _
    refine ⟨?_, hget⟩
    have hnew := hstored id
    rw [hget] at hnew
    exact folded_eq_of_get hnew (h.stored id)
  refine ⟨?_, fun j => ?_, hstored, fun u' hu' => ?_⟩
  · exact List.nodup_append.mpr ⟨h.nodup, by simp, fun a ha b hb => by
      rw [List.mem_singleton.mp hb]
      exact fun heq => hnot (heq ▸ ha)⟩
  · show j ∈ s.log ++ [i] ↔ ∃ u', (s.updates.set i { u with phase := .done (.ok ()) })[j]? = some u' ∧ _
    rw [getElem?_set_of_some hi, List.mem_append, List.mem_singleton, h.committed j]
    by_cases hji : j = i
    · simp [hji]
    · simp [hji]
  · rcases mem_set_of_some hi hu' with rfl | ⟨j, -, hj⟩
    · trivial
    · exact hlater.onTime (h.onTime u' (List.mem_of_getElem? hj))

theorem stage_onTime (h : Sound codec places s) {attempts version : Nat} {verdict : V} {tx : Transaction Id}
    (hv : version ≤ s.version places u.eventId)
    (hnow : s.version places u.eventId = version → verdict = u.change (s.folded codec u.eventId))
    (hstage : stage codec places (Transaction.begin.expectCollectionVersion .eventDag
      (places.eventVerdictCollectionId (places.eventRecordId u.eventId)) version) u.eventId verdict
        (E.get s.db (record places u.eventId)) = .ok tx) :
    OnTime codec places s { u with phase := .staged attempts tx } := by
  unfold stage at hstage
  cases hc : current codec u.eventId (E.get s.db (record places u.eventId)) with
  | error e =>
    rw [hc] at hstage
    cases hstage
  | ok w =>
    have hown := (h.current_eq hc).2
    simp only [hc, bind, Except.bind] at hstage
    split at hstage
    · rename_i hempty
      cases hstage
      exact ⟨version, verdict, hv, rfl, .inl ⟨hempty, rfl⟩, fun heq => ⟨hnow heq, hown⟩⟩
    · rename_i hempty
      cases hencode : codec.encode u.eventId verdict with
      | error e =>
        rw [hencode] at hstage
        cases hstage
      | ok bytes =>
        rw [hencode] at hstage
        cases hstage
        exact ⟨version, verdict, hv, rfl, .inr ⟨bytes, by simpa using hempty, hencode, rfl⟩,
          fun heq => ⟨hnow heq, hown⟩⟩

theorem Sound.next (h : Sound codec places s) (hi : s.updates[i]? = some u) {phase : Phase Id V}
    (hnext : s.next codec places u = (phase, none)) (hdone : u.phase.isDone = false) :
    phase ≠ .done (.ok ()) ∧ OnTime codec places s { u with phase := phase } := by
  have htime := h.onTime u (List.mem_of_getElem? hi)
  rw [OnTime] at htime
  unfold State.next at hnext
  cases hphase : u.phase with
  | start attempts =>
    rw [hphase] at hnext
    cases hnext
    exact ⟨by simp, Nat.le_refl _⟩
  | versioned attempts version =>
    rw [hphase] at htime
    simp only [hphase] at hnext
    split at hnext
    · rename_i verdict hc
      cases hnext
      exact ⟨by simp, htime, fun _ => by rw [(h.current_eq hc).1]⟩
    · cases hnext
      exact ⟨by simp, trivial⟩
  | changed attempts version verdict =>
    rw [hphase] at htime
    simp only [hphase] at hnext
    split at hnext
    · rename_i tx hstage
      cases hnext
      exact ⟨by simp, stage_onTime h htime.1 htime.2 hstage⟩
    · cases hnext
      exact ⟨by simp, trivial⟩
  | staged attempts tx =>
    simp only [hphase] at hnext
    split at hnext
    · cases hnext
    · split at hnext
      · cases hnext
        exact ⟨by simp, trivial⟩
      · cases hnext
        exact ⟨by simp, trivial⟩
    · cases hnext
      exact ⟨by simp, trivial⟩
  | done r =>
    rw [hphase] at hdone
    cases hdone

theorem next_eq_some {phase : Phase Id V} {db : E.Db} (hnext : s.next codec places u = (phase, some db)) :
    ∃ attempts tx, u.phase = .staged attempts tx ∧ E.commit s.db tx = .ok db ∧ phase = .done (.ok ()) := by
  unfold State.next at hnext
  cases hphase : u.phase with
  | start attempts => simp [hphase] at hnext
  | versioned attempts version =>
    simp only [hphase] at hnext
    split at hnext
    · cases hnext
    · cases hnext
  | changed attempts version verdict =>
    simp only [hphase] at hnext
    split at hnext
    · cases hnext
    · cases hnext
  | staged attempts tx =>
    simp only [hphase] at hnext
    split at hnext
    · rename_i db' hcommit
      cases hnext
      exact ⟨attempts, tx, rfl, hcommit, rfl⟩
    · split at hnext
      · cases hnext
      · cases hnext
    · cases hnext
  | done r => simp [hphase] at hnext

variable (codec places s) in
theorem fail_onTime (u : Update Id V) (e : StorageError) (hdone : u.phase.isDone = false) :
    State.fail u e ≠ .done (.ok ()) ∧ OnTime codec places s { u with phase := State.fail u e } := by
  unfold State.fail
  split
  · split
    · exact ⟨by simp, trivial⟩
    · exact ⟨by simp, trivial⟩
  · rename_i hphase
    rw [hphase] at hdone
    cases hdone
  · exact ⟨by simp, trivial⟩

theorem step_sound {a : Action V} (h : Sound codec places s) (hs : step codec places a s = some s') :
    Sound codec places s' := by
  cases a with
  | call id change =>
    cases hs
    exact h.call id change
  | run i fault =>
    obtain ⟨u, hi, hs⟩ := Option.bind_eq_some_iff.mp hs
    split at hs
    · cases hs
    · rename_i hdone
      have hdone : u.phase.isDone = false := by simpa using hdone
      have hu : u.phase ≠ .done (.ok ()) := by
        intro heq
        rw [heq] at hdone
        cases hdone
      cases fault with
      | some e =>
        cases hs
        obtain ⟨hphase, htime⟩ := fail_onTime codec places s u e hdone
        exact h.setPhase hi hu hphase htime
      | none =>
        rcases hnext : s.next codec places u with ⟨phase, new⟩
        simp only [hnext] at hs
        cases new with
        | none =>
          cases hs
          obtain ⟨hphase, htime⟩ := h.next hi hnext hdone
          exact h.setPhase hi hu hphase htime
        | some db =>
          cases hs
          obtain ⟨attempts, tx, hstaged, hcommit, rfl⟩ := next_eq_some hnext
          exact h.commit hi hstaged hcommit

theorem empty_sound {db : E.Db} (hempty : ∀ r, E.get db r = none) :
    Sound codec places (⟨db, [], []⟩ : State E V) := by
  refine ⟨List.nodup_nil, fun i => ?_, fun id => ?_, fun u hu => by cases hu⟩
  · simp
  · have hfolded : State.folded codec (⟨db, [], []⟩ : State E V) id = codec.default := rfl
    rw [hempty, hfolded, (codec.isEmpty_iff _).mpr rfl]
    rfl

/-- After every interleaving of updates, the stored verdict of each event is the fold of
the changes of the updates that returned, in the order of their commits, and a record is
there when that verdict is not empty; an update that failed is not among them. -/
theorem verdicts_folded {db : E.Db} (hempty : ∀ r, E.get db r = none)
    (hrun : Reaches (step codec places) (fun _ _ => True) ⟨db, [], []⟩ s) :
    s.log.Nodup ∧ (∀ i, i ∈ s.log ↔ ∃ u, s.updates[i]? = some u ∧ u.phase = .done (.ok ())) ∧
    ∀ eventId, get codec eventId (E.get s.db (record places eventId)) =
      .ok (if codec.isEmpty (s.folded codec eventId) then none else some (s.folded codec eventId)) := by
  have h : Sound codec places s := hrun.invariant (empty_sound hempty) fun _ _ _ h _ hs => step_sound h hs
  exact ⟨h.nodup, h.committed, h.stored⟩

end

/-! ## Two updates at once -/

/-- A rejection and a soft failure. -/
abbrev Codes := Option UInt8 × Option UInt8

def flags (v : Codes) : UInt8 := (if v.1.isSome then 1 else 0) + if v.2.isSome then 2 else 0

def encodeCodes (id : Bytes) (v : Codes) : Except StorageError Bytes :=
  if 4294967296 ≤ id.length then .error (.corrupt "event id is too long")
  else .ok ([1, flags v] ++ ((toBeBytes 4 id.length).reverse ++ (id ++ (v.1.toList ++ v.2.toList))))

def splitCodes (flags : UInt8) (codes : Bytes) : Option Codes :=
  match flags.toNat, codes with
  | 0, [] => some (none, none)
  | 1, [rejection] => some (some rejection, none)
  | 2, [softFail] => some (none, some softFail)
  | 3, [rejection, softFail] => some (some rejection, some softFail)
  | _, _ => none

def decodeCodes (bytes : Bytes) : Except StorageError (Bytes × Codes) :=
  let decoded : Option (Bytes × Codes) := do
    let header ← splitAt 2 bytes
    let length ← splitAt 4 header.2
    let id ← splitAt (ofBeBytes length.1.reverse) length.2
    let codes ← splitCodes (header.1.getLastD 0) id.2
    if header.1.head? = some 1 then some (id.1, codes) else none
  decoded.elim (.error (.corrupt "malformed verdict")) .ok

theorem splitCodes_flags (v : Codes) : splitCodes (flags v) (v.1.toList ++ v.2.toList) = some v := by
  obtain ⟨rejection, softFail⟩ := v
  cases rejection with
  | none =>
    cases softFail with
    | none => rfl
    | some _ => rfl
  | some _ =>
    cases softFail with
    | none => rfl
    | some _ => rfl

def codes : Codec Codes where
  default := (none, none)
  isEmpty v := v.1.isNone && v.2.isNone
  encode := encodeCodes
  decode := decodeCodes
  isEmpty_iff v := by
    obtain ⟨rejection, softFail⟩ := v
    simp
  decode_encode {id v bytes} h := by
    unfold encodeCodes at h
    split at h
    · cases h
    · rename_i hlen
      cases h
      have hlt : id.length < 256 ^ 4 := by omega
      have hhead : splitAt 2
        ([1, flags v] ++ ((toBeBytes 4 id.length).reverse ++ (id ++ (v.1.toList ++ v.2.toList)))) =
          some ([1, flags v], (toBeBytes 4 id.length).reverse ++ (id ++ (v.1.toList ++ v.2.toList))) :=
        splitAt_append rfl
      have hid : splitAt (ofBeBytes (toBeBytes 4 id.length).reverse.reverse) (id ++ (v.1.toList ++ v.2.toList)) =
          some (id, v.1.toList ++ v.2.toList) := by
        rw [List.reverse_reverse, ofBeBytes_toBeBytes, Nat.mod_eq_of_lt hlt]
        exact splitAt_append rfl
      refine ⟨by simp, ?_⟩
      simp only [decodeCodes, hhead, bind, Option.bind_some]
      rw [splitAt_append (by simp)]
      simp only [hid, Option.bind_some]
      have hlast : [1, flags v].getLastD 0 = flags v := rfl
      rw [hlast, splitCodes_flags]
      rfl

def places : Places (String × Bytes) where
  eventRecordId id := ("event", id)
  eventVerdictCollectionId node := ("verdicts", [UInt8.ofNat (node.2.length % 4)])

def reject (v : Codes) : Codes := (some 3, v.2)

def softFail (v : Codes) : Codes := (v.1, some 7)

/-- A soft failure that is overtaken by a rejection is tried again and adds to it. -/
theorem overtaken_update_kept :
    ∃ s : State (memory (String × Bytes)) Codes,
      Reaches (step codes places) (fun _ _ => True) ⟨(Memory.empty : Memory (String × Bytes)), [], []⟩ s ∧
      s.log = [1, 0] ∧
      get codes (utf8 "$e") ((memory (String × Bytes)).get s.db (record places (utf8 "$e"))) =
        .ok (some (some 3, some 7)) := by
  have hrun : ((runWhile (step codes places) (fun _ _ => True)
    [.call (utf8 "$e") softFail, .call (utf8 "$e") reject,
      .run 0 none, .run 0 none, .run 1 none, .run 1 none, .run 1 none, .run 1 none, .run 0 none, .run 0 none,
      .run 0 none, .run 0 none, .run 0 none, .run 0 none]
      (⟨(Memory.empty : Memory (String × Bytes)), [], []⟩ : State (memory (String × Bytes)) Codes)).map fun s =>
        (s.log, s.folded codes (utf8 "$e"))) = some ([1, 0], (some 3, some 7)) := by decide
  obtain ⟨s, hs, hv⟩ := Option.map_eq_some_iff.mp hrun
  rw [Prod.mk.injEq] at hv
  have hreach := Reaches.of_runWhile _ .init hs
  have hstored := (verdicts_folded (fun _ => rfl) hreach).2.2 (utf8 "$e")
  rw [hv.2] at hstored
  exact ⟨s, hreach, hv.1, hstored⟩

end Congruent.Verdicts
