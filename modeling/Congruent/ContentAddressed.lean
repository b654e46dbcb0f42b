import Congruent.Trail

/-!
# Content-addressed events

In rooms whose event ids are reference hashes, the JSON stored under an id has that
hash, as long as peers answer with the event they are asked for: a second copy and an
outlier asked for by its id are kept whatever they hash to.
-/

namespace Congruent

section
variable (plat : Platform) (ver : RoomId → RoomVersionId)

def Hashed (room : RoomId) (id : EventId) (json : Object) : Prop :=
  hasOpaqueEventIds (ver room) = false → plat.genEventId (ver room) json.strip = .ok id

def FromStore (s₀ : Server) (log : List Mark) (room : RoomId) (id : EventId) (json : Object) : Prop :=
  (s₀.eventidPdu id = some json → Hashed plat ver room id json) ∧
    ∀ room', .stored room' id json ∈ log → ver room' = ver room

/-- Peers send events without an id of their own and answer with the event asked for;
the version used is the room's; and reused events survive being decoded. -/
def HonestPeers (s₀ : Server) : Mark → List Mark → Prop
  | .received room v _ json, _ =>
    hasOpaqueEventIds (ver room) = false → v = ver room ∧ json.get "event_id" = none
  | .verified _ room v _ _ _, _ => v = ver room
  | .answered room id json, _ => Hashed plat ver room id json
  | .readBack room id json, log => FromStore plat ver s₀ log room id json
  | .reencoded room id json, log =>
    ∃ x, SameBody json x ∧ Copied s₀ log id x ∧ FromStore plat ver s₀ log room id x
  | _, _ => True

/-- Every event stored so far has the hash its id says. -/
def StoreHashed (log : List Mark) : Prop := ∀ room id json, .stored room id json ∈ log →
    Hashed plat ver room id json

end

section
variable {plat : Platform} {ver : RoomId → RoomVersionId} {s₀ s : Server} {room : RoomId} {id : EventId}
  {json json' : Object}

theorem Hashed.same (h : Hashed plat ver room id json) (hs : SameBody json' json) : Hashed plat
    ver room id json' := by
  intro ho
  rw [hs]
  exact h ho

theorem genEventId_congr {v : RoomVersionId} (ho : hasOpaqueEventIds v = false) {a b : Object}
    (h : plat.referenceHash v a = plat.referenceHash v b) : plat.genEventId v a = plat.genEventId v b := by
  unfold Platform.genEventId
  rw [ho, h]
  rfl

theorem remove_of_get_none {o : Object} {k : String} (h : o.get k = none) : o.remove k = o := by
  refine List.filter_eq_self.mpr fun p hp => ?_
  have hne := List.lookup_eq_none_iff.mp h p hp
  have hne' : k ≠ p.1 := by simpa using hne
  simpa using Ne.symm hne'

theorem genEventId_strip (hU : ∀ v o, plat.referenceHash v (o.remove "unsigned") = plat.referenceHash v o)
    {v : RoomVersionId} (ho : hasOpaqueEventIds v = false) (he : json.get "event_id" = none) :
    plat.genEventId v json.strip = plat.genEventId v json := by
  refine genEventId_congr ho ?_
  have hget : (json.remove "unsigned").get "event_id" = none := by rw [Object.get_remove_ne _ (by decide), he]
  rw [Object.strip, remove_of_get_none hget, hU]

theorem FromStore.hashed {log log' : List Mark} (h : FromStore plat ver s₀ log room id json)
    (hc : Copied s₀ log id json) (hsub : ∀ m ∈ log, m ∈ log') (hs : StoreHashed plat ver log') :
    Hashed plat ver room id json := by
  rcases hc with hstart | ⟨room', hm⟩
  · exact h.1 hstart
  · intro ho
    rw [← h.2 room' hm] at ho ⊢
    exact hs room' id json (hsub _ hm) ho

section
variable (hU : ∀ v o, plat.referenceHash v (o.remove "unsigned") = plat.referenceHash v o)
  (hR : ∀ v (o x : Object), plat.redact v o = .ok x → plat.referenceHash v x.strip = plat.referenceHash v o.strip)
  (h : Path plat s₀ s) (h₀ : s₀.log = []) (hc : Always (HonestPeers plat ver s₀) s.log)
  (hs : StoreHashed plat ver s.log)

include hU h h₀ hc hs in
theorem Taken.hashed (ht : Taken s.log room id json) : Hashed plat ver room id json := by
  cases ht with
  | received v hm =>
    obtain ⟨t, _, _, hal, hsuf⟩ := h.noted h₀ rfl hm
    intro ho
    obtain ⟨rfl, he⟩ := hc.at hsuf ho
    rw [genEventId_strip hU ho he]
    exact hal
  | answered hm =>
    obtain ⟨t, _, _, _, hsuf⟩ := h.noted h₀ rfl hm
    exact hc.at hsuf
  | readBack hm =>
    obtain ⟨t, hp, hr, hal, hsuf⟩ := h.noted h₀ rfl hm
    exact FromStore.hashed (hc.at hsuf) (hp.copied hal) (fun _ hm' => Path.log hr hm') hs
  | reencoded hm =>
    obtain ⟨t, hp, hr, _, hsuf⟩ := h.noted h₀ rfl hm
    obtain ⟨x, hb, hcopy, hfrom⟩ := hc.at hsuf
    exact (hfrom.hashed hcopy (fun _ hm' => Path.log hr hm') hs).same hb

include hU hR h h₀ hc hs in
theorem Traced.hashed (ht : Traced plat s.log room id json) : Hashed plat ver room id json := by
  obtain ⟨x, hx, hb | ⟨site, v, r, hv, hred, hb⟩⟩ := ht
  · exact (hx.hashed hU h h₀ hc hs).same hb
  · obtain ⟨t, _, _, _, hsuf⟩ := h.noted h₀ rfl hv
    have hver : v = ver room := hc.at hsuf
    subst hver
    refine Hashed.same (fun ho => ?_) hb
    have hhash := hR _ _ _ hred
    rw [Object.strip_remove_unsigned] at hhash
    rw [genEventId_congr ho hhash]
    exact hx.hashed hU h h₀ hc hs ho

include hU hR h h₀ hc hs in
theorem StoreHashed.write {w : Write} (hw : w.Allowed plat s) : StoreHashed plat ver (w.apply plat s).log := by
  intro room id json hm
  rw [w.apply_log, List.mem_append] at hm
  rcases hm with hm | hm
  · cases w with
    | note m =>
      rw [← List.mem_singleton.mp hm] at hw
      exact hw.elim
    | addPduOutlier room' id' json' =>
      unfold Write.marks at hm
      simp only at hm
      split at hm
      · cases hm
      · cases List.mem_singleton.mp hm
        exact (Traced.hashed hU hR h h₀ hc hs hw).same (Object.strip_insert_eventId _ _)
    | append a =>
      simp only [Write.marks, List.mem_cons, List.not_mem_nil, or_false] at hm
      rcases hm with hm | hm | hm
      · cases hm
      · cases hm
        exact (Traced.hashed hU hR h h₀ hc hs hw.2.1).same (withPrevState_strip _ _ _)
      · cases hm
    | accept how room' id' value' json' => cases List.mem_singleton.mp hm
    | unreject call id' => cases List.mem_singleton.mp hm
    | _ => cases hm
  · exact hs room id json hm

end

theorem Path.storeHashed (hU : ∀ v o, plat.referenceHash v (o.remove "unsigned") = plat.referenceHash v o)
    (hR : ∀ v (o x : Object), plat.redact v o = .ok x → plat.referenceHash v x.strip = plat.referenceHash v o.strip)
    (h : Path plat s₀ s) (h₀ : s₀.log = []) (hc : Always (HonestPeers plat ver s₀) s.log) :
    StoreHashed plat ver s.log := by
  induction h with
  | refl =>
    intro room id json hm
    rw [h₀] at hm
    cases hm
  | @tail t _ hp hst ih =>
    have hct := hc.of_suffix hst.suffix
    cases hst with
    | write w hw => exact StoreHashed.write hU hR hp h₀ hct (ih hct) hw

end

/-- However jobs are interleaved and whatever peers answer, stored events are
content-addressed as long as peers send no id of their own and answer with the event
they are asked for. -/
theorem serve_store_hashed (plat : Platform)
    (hU : ∀ v o, plat.referenceHash v (o.remove "unsigned") = plat.referenceHash v o)
    (hR : ∀ v (o x : Object), plat.redact v o = .ok x → plat.referenceHash v x.strip = plat.referenceHash v o.strip)
    (ver : RoomId → RoomVersionId) (jobs : List (Nat × Job)) (schedule : List Nat) (s₀ : Server) (h₀ : s₀.log = [])
    (hc : Always (HonestPeers plat ver s₀) (serve plat jobs schedule s₀).log) :
    StoreHashed plat ver (serve plat jobs schedule s₀).log :=
  (serve_path jobs schedule s₀).storeHashed hU hR h₀ hc

/-! ## Runs -/

theorem plain_hash_unsigned (v : RoomVersionId) (o : Object) :
    Platform.plain.referenceHash v (o.remove "unsigned") = Platform.plain.referenceHash v o := by
  show Except.ok (((o.remove "unsigned").get "hashes").bind Value.asStr |>.getD "") = _
  rw [Object.get_remove_ne _ (by decide)]
  rfl

theorem plain_hash_redact (v : RoomVersionId) (o x : Object) (h : Platform.plain.redact v o = .ok x) :
    Platform.plain.referenceHash v x.strip = Platform.plain.referenceHash v o.strip := by
  cases h
  show Except.ok (((o.insert "content" (.obj [])).strip.get "hashes").bind Value.asStr |>.getD "") =
    .ok ((o.strip.get "hashes").bind Value.asStr |>.getD "")
  rw [Object.get_strip _ (by decide) (by decide), Object.get_strip _ (by decide) (by decide),
    Object.get_insert_ne _ _ (by decide)]

/-- Marks that leave nothing to be asked of peers in a room of version 11. -/
def Mark.plainlyHonest : Mark → Bool
  | received _ v _ json => v == .V11 && (json.get "event_id").isNone
  | verified _ _ v _ _ _ => v == .V11
  | answered .. | readBack .. | reencoded .. => false
  | _ => true

theorem honestPeers_of_all {plat : Platform} {s₀ : Server} : ∀ {log : List Mark},
    log.all Mark.plainlyHonest = true →
    Always (HonestPeers plat (fun _ => .V11) s₀) log
  | [], _ => .nil
  | m :: log, h => by
    rw [List.all_cons, Bool.and_eq_true] at h
    refine .cons ?_ (honestPeers_of_all h.2)
    have hm := h.1
    cases m with
    | received room v id json =>
      simp only [Mark.plainlyHonest, Bool.and_eq_true, beq_iff_eq, Option.isNone_iff_eq_none] at hm
      exact fun _ => hm
    | verified site room v id json result =>
      have hv : v = .V11 := by simpa [Mark.plainlyHonest] using hm
      exact hv
    | answered room id json => cases hm
    | readBack room id json => cases hm
    | reencoded room id json => cases hm
    | _ => trivial

def postJobs : List (Nat × Job) :=
  [(100, .pdu "b" (some (wireEvent "m" "m.room.message" "@u:b" none [] ["$c", "$j"] ["$j"])))]

theorem post_store_hashed :
    (serve .plain postJobs (List.replicate 100 0) (.plain fun _ => .plain)).log.any Mark.isAppended = true ∧
      StoreHashed .plain (fun _ => .V11)
        (serve .plain postJobs (List.replicate 100 0) (.plain fun _ => .plain)).log := by
  refine ⟨by decide +kernel, ?_⟩
  refine serve_store_hashed .plain plain_hash_unsigned plain_hash_redact (fun _ => .V11) postJobs
    (List.replicate 100 0) (.plain fun _ => .plain) rfl ?_
  exact honestPeers_of_all (by decide +kernel)

def Job.UsesVersions (ver : RoomId → RoomVersionId) : Job → Prop
  | pdu .. => True
  | event _ room v _ _ => v = ver room
  | outliers _ _ _ room v _ => v = ver room

def World.swapping : World :=
  { World.plain with
    getEvent := fun _ _ => some [some (wireEvent "m" "m.room.message" "@u:b" none [] ["$c", "$j"] ["$j"])] }

/-- The event `$x` is fetched as an outlier. -/
def swapJobs : List (Nat × Job) := [(100, .outliers "b" ["$x"] none "!r:a" .V11 none)]

-- The answer is another event, with another hash; it is stored under the id asked for.
theorem swapped_event_stored :
    ¬ ∀ (plat : Platform) (_ : ∀ v o, plat.referenceHash v (o.remove "unsigned") = plat.referenceHash v o)
      (_ : ∀ v (o x : Object), plat.redact v o = .ok x → plat.referenceHash v x.strip =
        plat.referenceHash v o.strip)
      (ver : RoomId → RoomVersionId) (jobs : List (Nat × Job)) (schedule : List Nat) (s₀ : Server), s₀.log = [] →
      (∀ t room, (s₀.world t).roomVersion room = some (ver room)) → (∀ j ∈ jobs, j.2.UsesVersions ver) →
      StoreHashed plat ver (serve plat jobs schedule s₀).log := by
  intro h
  have hs := h .plain plain_hash_unsigned plain_hash_redact (fun _ => .V11) swapJobs (List.replicate 100 0)
    (.plain fun _ => .swapping) rfl (fun _ _ => rfl) (by simp [swapJobs, Job.UsesVersions])
  have hany : (serve .plain swapJobs (List.replicate 100 0) (.plain fun _ => .swapping)).log.any
    (fun m => match m with
      | .stored _ id json => id = "$x" && (Platform.plain.genEventId .V11 json.strip).toOption == some "$m"
      | _ => false) = true := by decide +kernel
  obtain ⟨m, hm, hid⟩ := List.any_eq_true.mp hany
  split at hid
  · rename_i room id json
    rw [Bool.and_eq_true, decide_eq_true_eq] at hid
    obtain ⟨rfl, hhash⟩ := hid
    have hok : Platform.plain.genEventId .V11 json.strip = .ok "$x" := hs room "$x" json hm rfl
    rw [hok] at hhash
    exact absurd hhash (by decide)
  · cases hid

end Congruent
