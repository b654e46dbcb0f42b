import Congruent.MainlineOrder

/-!
# When the mainline sort is right

The keys of a run differ from the reference keys at stray power-levels events
only. The sort is right for every order of its events exactly when no stray event
changes places by the key it is taken for.
-/

namespace Congruent

/-! ## The keys of a run -/

theorem dedupAfter_nodup {α : Type} [DecidableEq α] : ∀ {l : List α} {a : α}, (a :: l).Nodup → dedupAfter id a l = l
  | [], _, _ => rfl
  | b :: l, a, h => by
    obtain ⟨ha, hl⟩ := List.nodup_cons.mp h
    have hba : ¬ id b = a := fun hba => ha (by rw [← hba]; exact List.mem_cons_self)
    unfold dedupAfter
    rw [if_neg hba]
    exact congrArg (List.cons b) (dedupAfter_nodup hl)

theorem dedupByKey_nodup {α : Type} [DecidableEq α] : ∀ {l : List α}, l.Nodup → dedupByKey id l = l
  | [], _ => rfl
  | a :: _, h => congrArg (List.cons a) (dedupAfter_nodup h)

section
variable {store : EventStore} {powerLevels : Option EventId}

theorem referenceKey_eq {id : EventId} {ev : Pdu} (h : store.fetch id = some ev) :
    referenceKey store powerLevels id =
      (closestFrom store powerLevels (chainStart store ev), ev.originServerTs, id) := by
  simp [referenceKey, h]

theorem referenceKey_id (id : EventId) : (referenceKey store powerLevels id).2.2 = id := by
  unfold referenceKey
  split <;> rfl

theorem referenceKey_injective : Function.Injective (referenceKey store powerLevels) := fun x y h => by
  have := congrArg (fun key : Option Nat × Nat × EventId => key.2.2) h
  simpa only [referenceKey_id] using this

theorem MayKey.id_eq {l : List EventId} {id : EventId} {key : Option Nat × Nat × EventId}
    (h : MayKey store powerLevels l id key) : key.2.2 = id := by
  rcases h with ⟨rfl, -⟩ | ⟨rfl, -⟩ <;> exact referenceKey_id id

theorem not_stray {id : EventId} {ev : Pdu} (hf : store.fetch id = some ev)
    (hpl : isTypeAndKey ev .roomPowerLevels "" = false) : ¬ Stray store powerLevels id := by
  rintro ⟨ev', hf', hpl', -⟩
  cases hf.symm.trans hf'
  rw [hpl] at hpl'
  cases hpl'

theorem chainStart_powerLevels {id : EventId} {ev : Pdu} (hf : store.fetch id = some ev)
    (hpl : isTypeAndKey ev .roomPowerLevels "" = true) : chainStart store ev = some id := by
  rw [chainStart, if_pos hpl, store.eventId_of_fetch hf]

theorem mainlineKeys_cons {id : EventId} {ev : Pdu} (ids : List EventId) (depths : AList fun _ : EventId => Nat)
    (h : store.fetch id = some ev) :
    mainlineKeys store (id :: ids) depths = ((eventDepth store depths ev).1, ev.originServerTs, id) ::
      mainlineKeys store ids (eventDepth store depths ev).2 := by
  simp [mainlineKeys, h]

/-- Reading a stray event before its chain is known gives it the key of an event
without a mainline event. -/
theorem mainlineKeys_stray {passed : EventId → Prop} {depths : AList fun _ : EventId => Nat}
    (hT : TableFor store powerLevels passed depths) {id : EventId} (h : Stray store powerLevels id)
    (hp : ¬ passed id) (ids : List EventId) :
    mainlineKeys store (id :: ids) depths = strayKey store powerLevels id :: mainlineKeys store ids depths := by
  obtain ⟨ev, hf, hpl, hm, -⟩ := h
  rw [mainlineKeys_cons ids depths hf, eventDepth_powerLevels hpl, store.eventId_of_fetch hf, hT.unknown id hm hp,
    strayKey, referenceKey_eq hf]

variable (hac : AcyclicAuth store)
include hac

theorem mainlineKeys_mayKey {l : List EventId} : ∀ (ids : List EventId) (passed : EventId → Prop)
    (depths : AList fun _ : EventId => Nat), TableFor store powerLevels passed depths →
    (∀ x, passed x → PassedBy store l x) → ids ⊆ l → (∀ id ∈ ids, (store.fetch id).isSome = true) →
    (mainlineKeys store ids depths).map (·.2.2) = ids ∧
      ∀ key ∈ mainlineKeys store ids depths, MayKey store powerLevels l key.2.2 key
  | [], _, _, _, _, _, _ => ⟨rfl, by simp [mainlineKeys]⟩
  | id :: ids, passed, depths, hT, hpassed, hl, hids => by
    obtain ⟨ev, hf⟩ := Option.isSome_iff_exists.mp (hids id List.mem_cons_self)
    obtain ⟨hid, hl⟩ := List.cons_subset.mp hl
    have hids := fun x hx => hids x (List.mem_cons_of_mem _ hx)
    rw [mainlineKeys_cons ids depths hf]
    cases hpl : isTypeAndKey ev .roomPowerLevels "" with
    | false =>
      obtain ⟨hd, hT'⟩ := eventDepth_spec hac hT hpl
      obtain ⟨hmap, hkeys⟩ := mainlineKeys_mayKey ids _ _ hT' (fun x hx => by
        rcases hx with hx | hx
        · exact hpassed x hx
        · exact ⟨id, hid, ev, hf, hpl, hx⟩) hl hids
      refine ⟨by rw [List.map_cons, hmap], fun key hkey => ?_⟩
      rcases List.mem_cons.mp hkey with rfl | hkey
      · exact Or.inr ⟨by rw [hd, referenceKey_eq hf], fun h => absurd h (not_stray hf hpl)⟩
      · exact hkeys key hkey
    | true =>
      rw [eventDepth_powerLevels hpl, store.eventId_of_fetch hf]
      obtain ⟨hmap, hkeys⟩ := mainlineKeys_mayKey ids passed depths hT hpassed hl hids
      refine ⟨by rw [List.map_cons, hmap], fun key hkey => ?_⟩
      rcases List.mem_cons.mp hkey with rfl | hkey
      · have href : referenceKey store powerLevels id = _ := referenceKey_eq hf
        rw [chainStart_powerLevels hf hpl] at href
        by_cases hk : id ∈ mainline store powerLevels ∨ passed id
        · refine Or.inr ⟨by rw [hT.known id hk, href], fun ⟨_, _, _, hm, _⟩ => ?_⟩
          exact hpassed id (hk.resolve_left hm)
        · rw [not_or] at hk
          rw [hT.unknown id hk.1 hk.2]
          by_cases hc : closestFrom store powerLevels (some id) = none
          · refine Or.inr ⟨by rw [href, hc], fun ⟨_, _, _, _, h⟩ => absurd hc h⟩
          · exact Or.inl ⟨by rw [strayKey, href], ev, hf, hpl, hk.1, hc⟩
      · exact hkeys key hkey

end

/-! ## Sorting by keys -/

instance : Std.Total fun a b => mainlineLe a b = true :=
  ⟨fun a b => by simpa only [mainlineLe_iff] using le_total (mainlineRank a) (mainlineRank b)⟩

instance : IsTrans (Option Nat × Nat × EventId) fun a b => mainlineLe a b = true :=
  ⟨fun a b c hab hbc => by
    rw [mainlineLe_iff] at *
    exact le_trans hab hbc⟩

theorem mainlineLe_antisymm {a b : Option Nat × Nat × EventId} (hab : mainlineLe a b = true)
    (hba : mainlineLe b a = true) : a = b :=
  mainlineRank_injective (le_antisymm ((mainlineLe_iff a b).mp hab) ((mainlineLe_iff b a).mp hba))

theorem mainlineLe_comm {a b : Option Nat × Nat × EventId} (h : a ≠ b) : mainlineLe a b = !mainlineLe b a := by
  cases hab : mainlineLe a b with
  | true =>
    cases hba : mainlineLe b a with
    | true => exact absurd (mainlineLe_antisymm hab hba) h
    | false => rfl
  | false =>
    have hba := (mainlineLe_iff b a).mpr (le_of_not_ge fun h => by
      rw [(mainlineLe_iff a b).mpr h] at hab
      cases hab)
    rw [hba]
    rfl

theorem pairwise_either {α : Type} {R : α → α → Prop} {l : List α} (h : l.Pairwise R) {a b : α} (ha : a ∈ l)
    (hb : b ∈ l) (hne : a ≠ b) : R a b ∨ R b a := by
  have hsymm : Std.Symm fun a b => R a b ∨ R b a := ⟨fun _ _ => Or.symm⟩
  exact (h.imp (S := fun a b => R a b ∨ R b a) Or.inl).forall ha hb hne

section
variable {store : EventStore} {powerLevels : Option EventId}

theorem sorted_unique {s s' : List EventId} (h : s.Perm s')
    (hs : s.Pairwise fun x y => mainlineLe (referenceKey store powerLevels x)
      (referenceKey store powerLevels y) = true)
    (hs' : s'.Pairwise fun x y =>
      mainlineLe (referenceKey store powerLevels x) (referenceKey store powerLevels y) = true) : s = s' := by
  exact List.Perm.eq_of_pairwise (fun x y _ _ hxy hyx => referenceKey_injective (mainlineLe_antisymm hxy hyx)) hs
    hs' h

/-- A list of keys sorted by them is sorted by the reference keys when any two
keys compare as the reference keys of their events. -/
theorem sorted_of_keys {keys : List (Option Nat × Nat × EventId)} (hnd : (keys.map (·.2.2)).Nodup)
    (h : ∀ a ∈ keys, ∀ b ∈ keys, a.2.2 ≠ b.2.2 →
      mainlineLe a b = mainlineLe (referenceKey store powerLevels a.2.2) (referenceKey store powerLevels b.2.2)) :
    ((keys.insertionSort fun a b => mainlineLe a b).map (·.2.2)).Pairwise fun x y =>
      mainlineLe (referenceKey store powerLevels x) (referenceKey store powerLevels y) = true := by
  have hperm := List.perm_insertionSort (fun a b => mainlineLe a b = true) keys
  have hsorted := List.pairwise_insertionSort (fun a b => mainlineLe a b = true) keys
  have hne : ((keys.insertionSort fun a b => mainlineLe a b).map (·.2.2)).Nodup := (hperm.map _).nodup_iff.mpr hnd
  rw [List.pairwise_map]
  refine (hsorted.and (List.pairwise_map.mp hne)).imp_of_mem fun {a b} ha hb hab => ?_
  rw [← h a (hperm.mem_iff.mp ha) b (hperm.mem_iff.mp hb) hab.2]
  exact hab.1

theorem keys_of_sorted {keys : List (Option Nat × Nat × EventId)}
    (hs : ((keys.insertionSort fun a b => mainlineLe a b).map (·.2.2)).Pairwise fun x y =>
      mainlineLe (referenceKey store powerLevels x) (referenceKey store powerLevels y) = true)
    {a b : Option Nat × Nat × EventId} (ha : a ∈ keys) (hb : b ∈ keys) (hne : a.2.2 ≠ b.2.2) :
    mainlineLe a b = mainlineLe (referenceKey store powerLevels a.2.2) (referenceKey store powerLevels b.2.2) := by
  have hperm := List.perm_insertionSort (fun a b => mainlineLe a b = true) keys
  have hsorted := List.pairwise_insertionSort (fun a b => mainlineLe a b = true) keys
  -- whichever of the two comes first, both comparisons say so
  have hcase := pairwise_either (hsorted.and (List.pairwise_map.mp hs)) (hperm.mem_iff.mpr ha)
    (hperm.mem_iff.mpr hb)
    fun h => hne (by rw [h])
  have hrefs : referenceKey store powerLevels a.2.2 ≠ referenceKey store powerLevels b.2.2 :=
    referenceKey_injective.ne hne
  rcases hcase with ⟨hk, hr⟩ | ⟨hk, hr⟩
  · rw [hk, hr]
  · rw [mainlineLe_comm fun h => hne (by rw [h]), mainlineLe_comm hrefs, hk, hr]

end

/-! ## The condition -/

section
variable {store : EventStore} {powerLevels : Option EventId} (hac : AcyclicAuth store)
include hac

omit hac in
theorem mainlineSort_keys {table : AList fun _ : EventId => Nat} {l : List EventId}
    (ht : mainlineWalk store (store.events.length + 2) powerLevels 0 ∅ = some table) (hnd : l.Nodup)
    (hl : (mainlineKeys store l table).map (·.2.2) = l) :
    mainlineSort store l powerLevels =
      .ok (((mainlineKeys store l table).insertionSort fun a b => mainlineLe a b).map (·.2.2)) := by
  unfold mainlineSort
  by_cases hnil : l = []
  · subst hnil
    rfl
  · have hsort : (((mainlineKeys store l table).insertionSort fun a b => mainlineLe a b).map (·.2.2)).Nodup := by
      refine ((List.perm_insertionSort _ _).map _).nodup_iff.mpr ?_
      rwa [hl]
    rw [if_neg hnil, ht]
    simp only [dedupByKey_nodup hsort]

/-- The reference order of the events is what every order of them is sorted to,
where strays keep their places. -/
theorem sortsRight_of_inPlace {l : List EventId} (hnd : l.Nodup) (hl : ∀ id ∈ l, (store.fetch id).isSome = true)
    (h : StraysInPlace store powerLevels l) : SortsRight store powerLevels l := by
  obtain ⟨table, ht, hpos⟩ := mainlineWalk_positions powerLevels hac
  have hT := TableFor.start hac hpos
  have hrun : ∀ l' : List EventId, l'.Perm l → ∃ s : List EventId, s.Perm l ∧
      (s.Pairwise fun x y =>
        mainlineLe (referenceKey store powerLevels x) (referenceKey store powerLevels y) = true) ∧
      mainlineSort store l' powerLevels = .ok s := by
    intro l' hl'
    obtain ⟨hmap, hkeys⟩ := mainlineKeys_mayKey hac l' _ table hT (fun _ h => h.elim) hl'.subset
      fun id hid => hl id (hl'.mem_iff.mp hid)
    have hnd' : l'.Nodup := hl'.nodup_iff.mpr hnd
    have hin : ∀ key ∈ mainlineKeys store l' table, key.2.2 ∈ l := fun key hkey =>
      hl'.mem_iff.mp (by rw [← hmap]; exact List.mem_map_of_mem hkey)
    refine ⟨_, ?_, sorted_of_keys (by rwa [hmap]) fun a ha b hb hne => ?_, mainlineSort_keys ht hnd' hmap⟩
    · have := (List.perm_insertionSort (fun a b => mainlineLe a b = true) (mainlineKeys store l' table)).map (·.2.2)
      rw [hmap] at this
      exact this.trans hl'
    · have hka := hkeys a ha
      have hkb := hkeys b hb
      have hrefs : referenceKey store powerLevels a.2.2 ≠ referenceKey store powerLevels b.2.2 :=
        referenceKey_injective.ne hne
      rcases hka with ⟨hae, hstray⟩ | ⟨hae, hpass⟩
      · rw [hae, (show (strayKey store powerLevels a.2.2).2.2 = a.2.2 from referenceKey_id _)]
        exact h _ (hin a ha) hstray _ (hin b hb) hne.symm b hkb
      · rcases hkb with ⟨hbe, hstray⟩ | ⟨hbe, -⟩
        · rw [mainlineLe_comm fun h => hne (by rw [h]), mainlineLe_comm hrefs]
          congr 1
          have := h _ (hin b hb) hstray _ (hin a ha) hne a (Or.inr ⟨hae, hpass⟩)
          rwa [← hbe] at this
        · rw [← hae, ← hbe]
  obtain ⟨s, hs, hsorted, -⟩ := hrun l (List.Perm.refl l)
  refine ⟨s, hs, hsorted, fun l' hl' => ?_⟩
  obtain ⟨s', hs', hsorted', hok⟩ := hrun l' hl'
  rw [hok, sorted_unique (hs'.trans hs.symm) hsorted' hsorted]

/-- Where the sort is right, any two keys of one of its runs compare as the
reference keys of their events. -/
theorem SortsRight.keys {l : List EventId} (h : SortsRight store powerLevels l) (hnd : l.Nodup)
    (hl : ∀ id ∈ l, (store.fetch id).isSome = true) {table : AList fun _ : EventId => Nat}
    (ht : mainlineWalk store (store.events.length + 2) powerLevels 0 ∅ = some table)
    (hT : TableFor store powerLevels (fun _ => False) table) {l' : List EventId} (hl' : l'.Perm l)
    {a b : Option Nat × Nat × EventId} (ha : a ∈ mainlineKeys store l' table)
    (hb : b ∈ mainlineKeys store l' table) (hne : a.2.2 ≠ b.2.2) :
    mainlineLe a b = mainlineLe (referenceKey store powerLevels a.2.2) (referenceKey store powerLevels b.2.2) := by
  obtain ⟨s, -, hs, hrun⟩ := h
  obtain ⟨hmap, -⟩ := mainlineKeys_mayKey hac (l := l) l' _ table hT (fun _ h => h.elim) hl'.subset
    fun id hid => hl id (hl'.mem_iff.mp hid)
  have hok := mainlineSort_keys ht (hl'.nodup_iff.mpr hnd) hmap
  rw [hrun l' hl', Except.ok.injEq] at hok
  rw [hok] at hs
  exact keys_of_sorted hs ha hb hne

theorem inPlace_of_sortsRight {l : List EventId} (hnd : l.Nodup) (hl : ∀ id ∈ l, (store.fetch id).isSome = true)
    (h : SortsRight store powerLevels l) : StraysInPlace store powerLevels l := by
  obtain ⟨table, ht, hpos⟩ := mainlineWalk_positions powerLevels hac
  have hT := TableFor.start hac hpos
  intro x hx hstray y hy hyx key hkey
  have hxy : (strayKey store powerLevels x).2.2 ≠ key.2.2 := by
    rw [hkey.id_eq]
    exact fun he => hyx ((referenceKey_id x).symm.trans he).symm
  have hyl : y ∈ l.erase x := (List.mem_erase_of_ne hyx).mpr hy
  have hkeys := fun (l' : List EventId) (hl' : l'.Perm l) ha hb => SortsRight.keys hac h hnd hl ht hT hl' ha hb hxy
  rw [hkey.id_eq, show (strayKey store powerLevels x).2.2 = x from referenceKey_id x] at hkeys
  rcases hkey with ⟨rfl, hy'⟩ | ⟨rfl, hpass⟩
  · -- both in front
    refine hkeys (x :: y :: (l.erase x).erase y) ?_ ?_ ?_
    · exact ((List.perm_cons_erase hx).trans ((List.perm_cons_erase hyl).cons x)).symm
    · rw [mainlineKeys_stray hT hstray id]
      exact List.mem_cons_self
    · rw [mainlineKeys_stray hT hstray id, mainlineKeys_stray hT hy' id]
      exact List.mem_cons_of_mem _ List.mem_cons_self
  · by_cases hy' : Stray store powerLevels y
    · -- an event that passes `y` between the two
      obtain ⟨z, hz, evz, hfz, hplz, hyz⟩ := hpass hy'
      obtain ⟨evy, hfy, hply, -⟩ := id hy'
      have hzx : z ≠ x := fun he => not_stray hfz hplz (he ▸ hstray)
      have hyz' : y ≠ z := fun he => not_stray hfz hplz (he ▸ hy')
      have hzl : z ∈ l.erase x := (List.mem_erase_of_ne hzx).mpr hz
      have hyl : y ∈ (l.erase x).erase z := (List.mem_erase_of_ne hyz').mpr hyl
      have hk : ((eventDepth store table evz).2.lookup evy.eventId, evy.originServerTs, y) =
          referenceKey store powerLevels y := by
        rw [store.eventId_of_fetch hfy, (eventDepth_spec hac hT hplz).2.known y (Or.inr (Or.inr hyz)),
          referenceKey_eq hfy, chainStart_powerLevels hfy hply]
      have hkeys := hkeys (x :: z :: y :: ((l.erase x).erase z).erase y)
      rw [mainlineKeys_stray hT hstray id, mainlineKeys_cons _ _ hfz, mainlineKeys_cons _ _ hfy,
        eventDepth_powerLevels hply, hk] at hkeys
      refine hkeys ?_ (by simp) (by simp)
      have hperm := ((List.perm_cons_erase hyl).cons z).cons x
      exact ((List.perm_cons_erase hx).trans (((List.perm_cons_erase hzl).cons x).trans hperm)).symm
    · refine hkeys (x :: l.erase x) (List.perm_cons_erase hx).symm ?_ ?_
      · rw [mainlineKeys_stray hT hstray id]
        exact List.mem_cons_self
      · obtain ⟨hmap, hmay⟩ := mainlineKeys_mayKey hac (l := l) (x :: l.erase x) _ table hT (fun _ h => h.elim)
          (List.perm_cons_erase hx).symm.subset fun id hid => hl id ((List.perm_cons_erase hx).mem_iff.mpr hid)
        have hy : y ∈ x :: l.erase x := List.mem_cons_of_mem _ hyl
        rw [← hmap] at hy
        obtain ⟨key, hkey, rfl⟩ := List.mem_map.mp hy
        rcases hmay key hkey with ⟨-, hs⟩ | ⟨he, -⟩
        · exact absurd hs hy'
        · rwa [← he]

end

/-- The sort puts the events in the reference order, whatever order they are given
in, exactly when no stray power-levels event changes places. -/
theorem mainline_sort_right_iff (store : EventStore) (hac : AcyclicAuth store) (powerLevels : Option EventId)
    (l : List EventId) (hnd : l.Nodup) (hl : ∀ id ∈ l, (store.fetch id).isSome = true) :
    SortsRight store powerLevels l ↔ StraysInPlace store powerLevels l :=
  ⟨inPlace_of_sortsRight hac hnd hl, sortsRight_of_inPlace hac hnd hl⟩

/-! ## A power-levels event beside the mainline -/

theorem acyclicAuth_of_ordered {store : EventStore}
    (h : ∀ ev ∈ store.events, ∀ a ∈ ev.authEvents,
      (store.events.map (·.eventId)).idxOf a < (store.events.map (·.eventId)).idxOf ev.eventId) :
    AcyclicAuth store := by
  have hstep : ∀ x y, InChain store x y →
      (store.events.map (·.eventId)).idxOf y < (store.events.map (·.eventId)).idxOf x := by
    have hcite : ∀ x y, y ∈ authEventsOf store x →
        (store.events.map (·.eventId)).idxOf y < (store.events.map (·.eventId)).idxOf x := by
      intro x y hy
      cases hf : store.fetch x with
      | none => simp [authEventsOf, hf] at hy
      | some ev =>
        rw [← store.eventId_of_fetch hf]
        exact h ev (store.mem_of_fetch hf) y (by simpa [authEventsOf, hf] using hy)
    intro x y hxy
    induction hxy with
    | single hy => exact hcite _ _ hy
    | tail _ hz ih => exact Nat.lt_trans (hcite _ _ hz) ih
  exact fun x hx => Nat.lt_irrefl _ (hstep x x hx)

/-- Two power-levels events behind one another, a third beside them, and a topic
that cites the third. -/
def strayStore : EventStore where
  events :=
    [stateEvent "$c" "@alice:a" .roomCreate "" [("creator", .str "@alice:a")] [],
      stateEvent "$m" "@alice:a" .roomMember "@alice:a" [("membership", .str "join")] ["$c"],
      stateEvent "$p1" "@alice:a" .roomPowerLevels "" [("users", .obj [("@alice:a", .num 100)])] ["$c", "$m"],
      stateEvent "$p2" "@alice:a" .roomPowerLevels "" [("users", .obj [("@alice:a", .num 100)])]
        ["$c", "$m", "$p1"],
      stateEvent "$z" "@alice:a" .roomPowerLevels "" [("users", .obj [("@alice:a", .num 100)])] ["$c", "$m", "$p1"],
      stateEvent "$t" "@alice:a" (.other "m.room.topic") "" [] ["$c", "$m", "$z"]]
  nodup := by decide

theorem strayStore_acyclic : AcyclicAuth strayStore := acyclicAuth_of_ordered (by decide)

/-- The sort leaves the stray event and the topic in the order they come in. -/
theorem mainline_sort_order_dependent :
    mainlineSort strayStore ["$z", "$t"] (some "$p2") = .ok ["$z", "$t"] ∧
      mainlineSort strayStore ["$t", "$z"] (some "$p2") = .ok ["$t", "$z"] ∧
      AcyclicAuth strayStore ∧ ["$z", "$t"].Nodup ∧ (∀ id ∈ ["$z", "$t"], (strayStore.fetch id).isSome = true) ∧
      ¬ SortsRight strayStore (some "$p2") ["$z", "$t"] := by
  have h : mainlineSort strayStore ["$z", "$t"] (some "$p2") = .ok ["$z", "$t"] := by decide
  have h' : mainlineSort strayStore ["$t", "$z"] (some "$p2") = .ok ["$t", "$z"] := by decide
  refine ⟨h, h', strayStore_acyclic, by decide, by decide, ?_⟩
  rintro ⟨s, -, -, hrun⟩
  have hz := (hrun _ (List.Perm.refl _)).symm.trans h
  have ht := (hrun _ (List.Perm.swap _ _ _)).symm.trans h'
  exact absurd (hz.symm.trans ht) (by decide)

/-- A stray event that sorts before the head of the mainline either way. -/
theorem mainline_sort_right_beside :
    SortsRight strayStore (some "$p2") ["$z", "$p2"] := by
  refine (mainline_sort_right_iff strayStore strayStore_acyclic (some "$p2") ["$z", "$p2"] (by decide)
    (by decide)).mpr ?_
  have hhead : ¬ Stray strayStore (some "$p2") "$p2" := by
    rintro ⟨ev, -, -, hm, -⟩
    exact hm (by decide)
  intro x hx hs y hy hyx key hkey
  rcases List.mem_pair.mp hx with rfl | rfl
  · obtain rfl := (List.mem_pair.mp hy).resolve_left hyx
    rcases hkey with ⟨-, hs⟩ | ⟨rfl, -⟩
    · exact absurd hs hhead
    · decide
  · exact absurd hs hhead

end Congruent
