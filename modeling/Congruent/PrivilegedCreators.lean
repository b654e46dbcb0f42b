import Congruent.ResolverLevels

/-!
# Privileged creators among the users (`inject_privileged_creators`)

Creators are appended to the sorted users of a power-levels content, each after a search
in the list as it stands, and the list is sorted at the end. When its lookups answer the
maximal level for creators, and for others what the content gives them.
-/

namespace Congruent

open LeanEvents

section
variable (c : Codec) (store : EventStore) (unconflicted : StateMap EventId)

def privilegedCreators : List UserId :=
  match (unconflicted.lookup (.roomCreate, "")).bind store.fetch with
  | none => []
  | some ev =>
    match c.roomCreate ev.content with
    | .ok content => ev.sender :: content.additionalCreators.getD []
    | .error _ => []

end

def contentLevel (content : Value) (user : UserId) : Option Int :=
  ((content.get "users").bind Value.asObject).bind fun o => (o.get user).bind parseIntlike

def withCreators (users : List (UserId × Int)) (creators : List UserId) : List (UserId × Int) :=
  creators.foldl (fun l u => if u ∈ l.map (·.1) then l else l ++ [(u, intMax)]) users

/-- Wherever a creator is in the list at its turn, the search finds it. -/
def Found (users : List (UserId × Int)) (default : Int) (creators : List UserId) : Prop :=
  ∀ earlier u later, creators = earlier ++ u :: later → u ∈ (withCreators users earlier).map (·.1) →
    (PowerLevelsContentFields.getUserPower ⟨withCreators users earlier, default⟩ u).isSome = true

/-- No creator is listed below the maximal level, and each that is in the list at its turn is
found there. -/
structure Injectable (fields : PowerLevelsContentFields) (creators : List UserId) : Prop where
  maximal : ∀ u ∈ creators, ∀ n, (u, n) ∈ fields.users → n = intMax
  found : Found fields.users fields.usersDefault creators

/-- The users increase, and lookups answer as the content does but for creators. -/
structure AnswersAsContent (content : Value) (creators : List UserId)
    (fields : PowerLevelsContentFields) : Prop where
  sorted : fields.users.Pairwise fun p q => p.1 < q.1
  level : ∀ u, fields.getUserPower u = if u ∈ creators then some intMax else contentLevel content u

/-! ## Appending -/

section
variable {users : List (UserId × Int)} {default : Int}

theorem withCreators_concat (creators : List UserId) (u : UserId) :
    withCreators users (creators ++ [u]) =
      if u ∈ (withCreators users creators).map (·.1) then withCreators users creators
      else withCreators users creators ++ [(u, intMax)] := by
  unfold withCreators
  rw [List.foldl_append]
  rfl

theorem mem_keys_withCreators (creators : List UserId) (u : UserId) :
    u ∈ (withCreators users creators).map (·.1) ↔ u ∈ users.map (·.1) ∨ u ∈ creators := by
  induction creators using List.reverseRecOn with
  | nil => simp [withCreators]
  | append_singleton creators v ih =>
    rw [withCreators_concat, List.mem_append, List.mem_singleton, ← or_assoc, ← ih]
    split
    · rename_i hv
      refine ⟨Or.inl, fun h => h.elim id ?_⟩
      rintro rfl
      exact hv
    · rw [List.map_append, List.mem_append, List.map_singleton, List.mem_singleton]

theorem mem_withCreators (creators : List UserId) (p : UserId × Int) :
    p ∈ withCreators users creators ↔ p ∈ users ∨ p.1 ∈ creators ∧ p.1 ∉ users.map (·.1) ∧ p.2 = intMax := by
  induction creators using List.reverseRecOn with
  | nil => simp [withCreators]
  | append_singleton creators v ih =>
    rw [withCreators_concat]
    split
    · rename_i hv
      rw [mem_keys_withCreators] at hv
      rw [ih, List.mem_append, List.mem_singleton]
      refine or_congr_right (and_congr_left fun hrest => ⟨Or.inl, fun h => h.elim id ?_⟩)
      rintro rfl
      exact hv.resolve_left hrest.1
    · rename_i hv
      rw [mem_keys_withCreators, not_or] at hv
      rw [List.mem_append, ih, List.mem_append, List.mem_singleton, List.mem_singleton, or_assoc]
      refine or_congr_right ?_
      constructor
      · rintro (h | rfl)
        · exact ⟨Or.inl h.1, h.2⟩
        · exact ⟨Or.inr rfl, hv.1, rfl⟩
      · rintro ⟨h | h, hrest⟩
        · exact Or.inl ⟨h, hrest⟩
        · exact Or.inr (Prod.ext h hrest.2)

theorem nodup_withCreators (hn : (users.map (·.1)).Nodup) (creators : List UserId) :
    ((withCreators users creators).map (·.1)).Nodup := by
  induction creators using List.reverseRecOn with
  | nil => exact hn
  | append_singleton creators v ih =>
    rw [withCreators_concat]
    split
    · exact ih
    · rename_i hv
      rw [List.map_append, List.nodup_append]
      refine ⟨ih, List.nodup_singleton _, fun x hx y hy heq => hv ?_⟩
      rw [List.map_singleton, List.mem_singleton] at hy
      rwa [← show y = v from hy, ← heq]

theorem getUserPower_none {u : UserId} (h : u ∉ users.map (·.1)) :
    PowerLevelsContentFields.getUserPower ⟨users, default⟩ u = none := by
  unfold PowerLevelsContentFields.getUserPower
  cases hs : binarySearchBy (fun item => compare item.1 u) users with
  | none => rfl
  | some i =>
    obtain ⟨hi, heq⟩ := binarySearchBy_some hs
    exact absurd (List.mem_map.mpr ⟨users[i], List.getElem_mem hi, compare_eq_iff_eq.mp heq⟩) h

theorem found_concat (creators : List UserId) (u : UserId) :
    Found users default (creators ++ [u]) ↔ Found users default creators ∧
      (u ∈ (withCreators users creators).map (·.1) →
        (PowerLevelsContentFields.getUserPower ⟨withCreators users creators, default⟩ u).isSome = true) := by
  constructor
  · intro h
    refine ⟨fun earlier v later heq => h earlier v (later ++ [u]) ?_, h creators u [] rfl⟩
    rw [heq, List.append_assoc, List.cons_append]
  · rintro ⟨h, hu⟩ earlier v later heq hv
    rcases List.eq_nil_or_concat later with rfl | ⟨later, w, rfl⟩
    · obtain ⟨rfl, hvu⟩ := List.append_inj' heq rfl
      cases hvu
      exact hu hv
    · rw [List.concat_eq_append, ← List.cons_append, ← List.append_assoc] at heq
      exact h earlier v later (List.append_inj' heq rfl).1 hv

/-- The searches append the creators once if and only if each finds a creator that is there. -/
theorem foldl_pushCreator (users : List (UserId × Int)) (default : Int) (creators : List UserId) :
    (Found users default creators →
        creators.foldl pushCreator ⟨users, default⟩ = ⟨withCreators users creators, default⟩) ∧
      (((creators.foldl pushCreator ⟨users, default⟩).users.map (·.1)).Nodup → Found users default creators) := by
  induction creators using List.reverseRecOn with
  | nil => exact ⟨fun _ => rfl, fun _ earlier u later h => by simp at h⟩
  | append_singleton creators u ih =>
    have hlast : (creators ++ [u]).foldl pushCreator ⟨users, default⟩ =
        pushCreator (creators.foldl pushCreator ⟨users, default⟩) u := by
      rw [List.foldl_append]
      rfl
    rw [hlast, found_concat, withCreators_concat]
    constructor
    · rintro ⟨h, hu⟩
      rw [ih.1 h]
      unfold pushCreator
      by_cases hmem : u ∈ (withCreators users creators).map (·.1)
      · have hsome := hu hmem
        rw [if_pos hmem, if_neg]
        rw [Option.isNone_iff_eq_none]
        intro hnone
        rw [hnone] at hsome
        cases hsome
      · rw [if_neg hmem, getUserPower_none hmem]
        rfl
    · intro hnodup
      have hearlier : ((creators.foldl pushCreator ⟨users, default⟩).users.map (·.1)).Nodup := by
        unfold pushCreator at hnodup
        split at hnodup
        · rw [List.map_append] at hnodup
          exact (List.nodup_append.mp hnodup).1
        · exact hnodup
      have hfound := ih.2 hearlier
      refine ⟨hfound, fun hmem => ?_⟩
      rw [ih.1 hfound] at hnodup
      by_contra hno
      rw [Bool.not_eq_true, Option.isSome_eq_false_iff] at hno
      unfold pushCreator at hnodup
      rw [if_pos hno, List.map_append] at hnodup
      exact (List.nodup_append.mp hnodup).2.2 u hmem u (List.mem_singleton_self u) rfl

end

/-! ## Sorting -/

section
variable {fields : PowerLevelsContentFields}

theorem sorted_iff (users : List (UserId × Int)) :
    ((users.insertionSort fun a b => a.1 ≤ b.1).Pairwise fun p q => p.1 < q.1) ↔ (users.map (·.1)).Nodup := by
  have hperm := (List.perm_insertionSort (fun a b : UserId × Int => a.1 ≤ b.1) users).map (·.1)
  rw [← hperm.nodup_iff, List.Nodup, List.pairwise_map]
  have hle : (users.insertionSort fun a b => a.1 ≤ b.1).Pairwise fun p q => p.1 ≤ q.1 :=
    List.pairwise_insertionSort _ _
  exact ⟨fun h => h.imp fun hlt => ne_of_lt hlt, fun h => (hle.and h).imp fun h => lt_of_le_of_ne h.1 h.2⟩

theorem nodup_of_sorted {users : List (UserId × Int)} (h : users.Pairwise fun p q => p.1 < q.1) :
    (users.map (·.1)).Nodup := by
  rw [List.Nodup, List.pairwise_map]
  exact h.imp fun hlt => ne_of_lt hlt

theorem injectPrivilegedCreators_eq (c : Codec) (store : EventStore) (unconflicted : StateMap EventId)
    (hs : fields.users.Pairwise fun p q => p.1 < q.1) :
    injectPrivilegedCreators c store unconflicted fields =
      let pushed := (privilegedCreators c store unconflicted).foldl pushCreator fields
      { pushed with users := pushed.users.insertionSort fun a b => a.1 ≤ b.1 } := by
  have hkept : { fields with users := fields.users.insertionSort fun a b => a.1 ≤ b.1 } = fields := by
    have heq : (fields.users.insertionSort fun a b => a.1 ≤ b.1) = fields.users :=
      List.Pairwise.insertionSort_eq (hs.imp fun hlt => le_of_lt hlt)
    rw [heq]
  unfold injectPrivilegedCreators privilegedCreators
  cases hid : unconflicted.lookup (EventType.roomCreate, "") with
  | none => simpa [hid] using hkept.symm
  | some id =>
    cases hev : store.fetch id with
    | none => simpa [hid, hev] using hkept.symm
    | some ev =>
      cases hcontent : c.roomCreate ev.content with
      | error e => simpa [hid, hev, hcontent, Except.toOption] using hkept.symm
      | ok content => simp [hev, hcontent, Except.toOption]

end

/-! ## Lookups -/

section
variable {c : Codec} {fields : PowerLevelsContentFields} {content : Value}

theorem parse_users (h : PowerLevelsContentFields.parse c content = .ok fields) :
    users c content = .ok fields.users := by
  obtain ⟨o, ho, h⟩ := bind_eq_ok.mp h
  obtain ⟨us, hus, h⟩ := bind_eq_ok.mp h
  obtain ⟨default, hdefault, h⟩ := bind_eq_ok.mp h
  cases h
  rwa [← Value.object_eq_ok ho] at hus

/-- After creators are injected the users are sorted without duplicates and lookups answer as
the content does, with the maximal level for creators, if and only if no creator is listed
below that level and each that is in the list at its turn is found there. -/
theorem inject_creators_iff (hparse : ∀ k u, c.parseUserId k = some u → u = k) (store : EventStore)
    (unconflicted : StateMap EventId) (h : PowerLevelsContentFields.parse c content = .ok fields) :
    AnswersAsContent content (privilegedCreators c store unconflicted)
        (injectPrivilegedCreators c store unconflicted fields) ↔
      Injectable fields (privilegedCreators c store unconflicted) := by
  have hs := users_sorted hparse (parse_users h)
  have hlevel : ∀ u n, contentLevel content u = some n ↔ (u, n) ∈ fields.users := by
    intro u n
    rw [← getUserPower_eq_some hs]
    exact Eq.congr_left (users_power hparse (parse_users h) fields.usersDefault u).symm
  rw [injectPrivilegedCreators_eq c store unconflicted hs]
  generalize privilegedCreators c store unconflicted = creators
  obtain ⟨hpushed, hfound⟩ := foldl_pushCreator fields.users fields.usersDefault creators
  have hmem : ∀ us : List (UserId × Int), ∀ p, p ∈ (us.insertionSort fun a b => a.1 ≤ b.1) ↔ p ∈ us :=
    fun us p => List.mem_insertionSort _
  constructor
  · rintro ⟨hsorted, hanswer⟩
    have hall := hfound ((sorted_iff _).mp hsorted)
    refine ⟨fun u hu n hun => ?_, hall⟩
    have hin : (u, n) ∈ withCreators fields.users creators := (mem_withCreators creators _).mpr (Or.inl hun)
    have hpower := (getUserPower_eq_some hsorted).mpr ((hmem _ _).mpr (by rw [hpushed hall]; exact hin))
    rw [hanswer u, if_pos hu] at hpower
    exact (Option.some.inj hpower).symm
  · rintro ⟨hmax, hall⟩
    simp only
    rw [hpushed hall]
    have hsorted := (sorted_iff _).mpr (nodup_withCreators (nodup_of_sorted hs) creators)
    refine ⟨hsorted, fun u => Option.ext fun n => ?_⟩
    rw [getUserPower_eq_some hsorted, hmem, mem_withCreators]
    by_cases hu : u ∈ creators
    · rw [if_pos hu, Option.some.injEq]
      constructor
      · rintro (hun | hun)
        · exact (hmax u hu n hun).symm
        · exact hun.2.2.symm
      · rintro rfl
        by_cases hlisted : u ∈ fields.users.map (·.1)
        · obtain ⟨⟨v, m⟩, hv, rfl⟩ := List.mem_map.mp hlisted
          exact Or.inl (hmax v hu m hv ▸ hv)
        · exact Or.inr ⟨hu, hlisted, rfl⟩
    · rw [if_neg hu, hlevel]
      exact ⟨fun hun => hun.resolve_right fun hun => hu hun.1, Or.inl⟩

end

/-! ## Rooms and their creators -/

def createdWith (sender : UserId) (additional : List UserId) : EventStore where
  events := [stateEvent "$create" sender .roomCreate "" [("additional_creators", .arr (additional.map .str))] []]
  nodup := by simp

def atCreate : StateMap EventId := AList.singleton (.roomCreate, "") "$create"

def usersContent (users : Object) : Value := .obj [("users", .obj users)]

theorem inject_creators_one :
    AnswersAsContent (usersContent [("@bob:a", .num 50)]) ["@alice:a"]
      (injectPrivilegedCreators .plain (createdWith "@alice:a" []) atCreate ⟨[("@bob:a", 50)], 0⟩) := by
  have hread : PowerLevelsContentFields.parse .plain (usersContent [("@bob:a", .num 50)]) =
      .ok ⟨[("@bob:a", 50)], 0⟩ := by rfl
  have hcreators : privilegedCreators .plain (createdWith "@alice:a" []) atCreate = ["@alice:a"] := by decide
  have hiff := inject_creators_iff plain_parses (createdWith "@alice:a" []) atCreate hread
  rw [hcreators] at hiff
  refine hiff.mpr ⟨fun u hu n hun => ?_, fun earlier u later heq hu => ?_⟩
  · rw [List.mem_singleton] at hu hun
    rw [hu] at hun
    exact absurd (Prod.mk.inj hun).1 (by decide)
  · cases earlier with
    | nil =>
      rw [← (List.cons.inj heq).1] at hu
      exact absurd hu (by decide)
    | cons v earlier => simp at heq

/-- A creator that is listed keeps the level of the list, and one that is given twice may be
listed twice. -/
theorem creators_miss_maximum :
    PowerLevelsContentFields.parse .plain (usersContent [("@alice:a", .num 50)]) = .ok ⟨[("@alice:a", 50)], 0⟩ ∧
      "@alice:a" ∈ privilegedCreators .plain (createdWith "@alice:a" []) atCreate ∧
      (injectPrivilegedCreators .plain (createdWith "@alice:a" []) atCreate ⟨[("@alice:a", 50)], 0⟩).getUserPower
        "@alice:a" = some 50 ∧
      (injectPrivilegedCreators .plain (createdWith "@c:a" ["@a:a", "@b:a", "@c:a"]) atCreate ⟨[], 0⟩).users =
        [("@a:a", intMax), ("@b:a", intMax), ("@c:a", intMax), ("@c:a", intMax)] :=
  ⟨rfl, by decide, by decide, by decide⟩

end Congruent
