import Congruent.DeviceTokens

/-!
# Runs of calls on tokens

A refresh token is accepted exactly while it is one of the two of its device, and a token
that is gone stays so.
-/

namespace Congruent.DeviceTokens

/-! ## Tables -/

/-- What the tables have to do with one another, and with the tokens drawn. -/
structure Sound (t : Tables) (issued : SortedMap String Device) : Prop where
  access : ∀ x d, t.tokenUserdeviceid.get x = some d → (x ≠ "" → issued.get x = some d) ∧ x ∈ t.activeTokens d
  refresh : ∀ x d, t.refreshtokenUserdeviceid.get x = some d ↔
    t.userdeviceidRefreshtoken.get d = some x ∨ t.userdeviceidPrevrefreshtoken.get d = some x
  apart : ∀ x d, t.userdeviceidRefreshtoken.get d = some x → t.userdeviceidPrevrefreshtoken.get d ≠ some x
  issued : ∀ x d, t.refreshtokenUserdeviceid.get x = some d → issued.get x = some d

/-- A change to the rows of one device. -/
structure Touches (d : Device) (issued : SortedMap String Device) (t t' : Tables) : Prop where
  access : ∀ x e, t'.tokenUserdeviceid.get x = some e →
    t.tokenUserdeviceid.get x = some e ∨ e = d ∧ (x ≠ "" → issued.get x = none)
  refresh : ∀ x e, t'.refreshtokenUserdeviceid.get x = some e →
    t.refreshtokenUserdeviceid.get x = some e ∨ e = d ∧ issued.get x = none
  kept : ∀ x e, e ≠ d → t.refreshtokenUserdeviceid.get x = some e → t'.refreshtokenUserdeviceid.get x = some e

section
variable {t t' : Tables} {issued : SortedMap String Device} {d : Device} {x y : String}

theorem Touches.refl (d : Device) (issued : SortedMap String Device) (t : Tables) : Touches d issued t t :=
  ⟨fun _ _ => .inl, fun _ _ => .inl, fun _ _ _ h => h⟩

theorem get_setRow_self {V : Type} (m : SortedMap Device V) (d : Device) (v : Option V) :
    (Tables.setRow m d v).get d = v := by
  cases v with
  | none => exact SortedMap.get_remove_self m d
  | some v => exact SortedMap.get_insert_self m d v

theorem get_setRow_of_ne {V : Type} (m : SortedMap Device V) {d e : Device} (h : e ≠ d) (v : Option V) :
    (Tables.setRow m d v).get e = m.get e := by
  cases v with
  | none => exact SortedMap.get_remove_of_ne m h
  | some v => exact SortedMap.get_insert_of_ne m v h

theorem get_commit (t : Tables) (d : Device) (current previous : Option String)
    (revoked : List String) (x : String) :
    (t.commitRefreshTokens d current previous revoked).refreshtokenUserdeviceid.get x =
      if current = some x then some d else if x ∈ revoked then none else t.refreshtokenUserdeviceid.get x := by
  unfold Tables.commitRefreshTokens
  cases current with
  | none =>
    rw [if_neg (Option.some_ne_none x).symm]
    exact SortedMap.get_foldl_remove _ _ _
  | some c =>
    by_cases hc : c = x
    · rw [hc, if_pos rfl]
      exact SortedMap.get_insert_self _ _ _
    · rw [if_neg fun h => hc (Option.some.inj h)]
      exact (SortedMap.get_insert_of_ne _ _ (Ne.symm hc)).trans (SortedMap.get_foldl_remove _ _ _)

/-- A commit that revokes the tokens of the device except one, and makes a new one current. -/
structure Rotation (t : Tables) (d : Device) (issued : SortedMap String Device) (current previous : Option String)
    (revoked : List String) : Prop where
  fresh : ∀ c, current = some c → issued.get c = none
  tokens : ∀ x, t.refreshtokenUserdeviceid.get x = some d ↔ x ∈ revoked ∨ previous = some x
  previous : ∀ p, previous = some p → p ∉ revoked

theorem Sound.commit (h : Sound t issued) {issued' : SortedMap String Device} {current previous : Option String}
    {revoked : List String} (hr : Rotation t d issued current previous revoked)
    (hext : ∀ x e, issued.get x = some e → issued'.get x = some e)
    (hnew : ∀ c, current = some c → issued'.get c = some d) :
    Sound (t.commitRefreshTokens d current previous revoked) issued' := by
  have hprevious : ∀ x, previous = some x → t.refreshtokenUserdeviceid.get x = some d :=
    fun x hx => (hr.tokens x).mpr (.inr hx)
  have hcurrent : ∀ c e, current = some c → t.refreshtokenUserdeviceid.get c ≠ some e := by
    intro c e hc hget
    have hnone := h.issued c e hget
    rw [hr.fresh c hc] at hnone
    cases hnone
  refine ⟨fun x e hget => ?_, fun x e => ?_, fun x e hget => ?_, fun x e hget => ?_⟩
  · obtain ⟨hissued, hmem⟩ := h.access x e hget
    exact ⟨fun hx => hext x e (hissued hx), hmem⟩
  · rw [get_commit]
    unfold Tables.commitRefreshTokens
    by_cases he : e = d
    · subst he
      rw [get_setRow_self, get_setRow_self]
      split
      · rename_i hc
        exact ⟨fun _ => .inl hc, fun _ => rfl⟩
      · rename_i hc
        split
        · rename_i hrevoked
          refine ⟨fun h => ?_, fun h => ?_⟩
          · cases h
          · exact absurd hrevoked (hr.previous x (h.resolve_left hc))
        · rename_i hrevoked
          rw [hr.tokens x]
          exact ⟨fun h => .inr (h.resolve_left hrevoked), fun h => .inr (h.resolve_left hc)⟩
    · rw [get_setRow_of_ne _ he, get_setRow_of_ne _ he, ← h.refresh x e]
      split
      · rename_i hc
        exact ⟨fun h => absurd (Option.some.inj h).symm he, fun h => absurd h (hcurrent x e hc)⟩
      · split
        · rename_i hrevoked
          refine ⟨fun h => ?_, fun h => ?_⟩
          · cases h
          · rw [(hr.tokens x).mpr (.inl hrevoked), Option.some.injEq] at h
            exact absurd h.symm he
        · exact Iff.rfl
  · unfold Tables.commitRefreshTokens at hget ⊢
    by_cases he : e = d
    · subst he
      rw [get_setRow_self] at hget
      rw [get_setRow_self]
      exact fun hp => hcurrent x e hget (hprevious x hp)
    · rw [get_setRow_of_ne _ he] at hget
      rw [get_setRow_of_ne _ he]
      exact h.apart x e hget
  · rw [get_commit] at hget
    split at hget
    · rename_i hc
      cases hget
      exact hnew x hc
    · split at hget
      · cases hget
      · exact hext x e (h.issued x e hget)

theorem Touches.commit (h : Sound t issued) {current previous : Option String} {revoked : List String}
    (hr : Rotation t d issued current previous revoked) :
    Touches d issued t (t.commitRefreshTokens d current previous revoked) := by
  refine ⟨fun _ _ => .inl, fun x e hget => ?_, fun x e he hget => ?_⟩
  · rw [get_commit] at hget
    split at hget
    · rename_i hc
      cases hget
      exact .inr ⟨rfl, hr.fresh x hc⟩
    · split at hget
      · cases hget
      · exact .inl hget
  · rw [get_commit]
    split
    · rename_i hc
      have hissued := h.issued x e hget
      rw [hr.fresh x hc] at hissued
      cases hissued
    · split
      · rename_i hrevoked
        rw [(hr.tokens x).mpr (.inl hrevoked), Option.some.injEq] at hget
        exact absurd hget.symm he
      · exact hget

theorem Rotation.all (h : Sound t issued) {v : Option String} (hfresh : ∀ c, v = some c → issued.get c = none) :
    Rotation t d issued v none (t.refreshTokens d) := by
  refine ⟨hfresh, fun x => ?_, fun p hp => by cases hp⟩
  rw [h.refresh x d, Tables.refreshTokens, List.mem_append, Option.mem_toList, Option.mem_toList]
  exact ⟨.inl, fun h => h.resolve_right (Option.some_ne_none x).symm⟩

theorem rotate_eq (h : Sound t issued) {used : String} (hused : t.refreshtokenUserdeviceid.get used = some d)
    (hfresh : issued.get x = none) : ∃ revoked, Rotation t d issued (some x) (some used) revoked ∧
      t.rotateRefreshToken d used x = t.commitRefreshTokens d (some x) (some used) revoked := by
  have hnew : ∀ c, some x = some c → issued.get c = none := by
    intro c hc
    cases hc
    exact hfresh
  unfold Tables.rotateRefreshToken
  by_cases hcurrent : t.userdeviceidRefreshtoken.get d = some used
  · rw [if_pos hcurrent]
    refine ⟨_, ⟨hnew, fun y => ?_, fun p hp => ?_⟩, rfl⟩
    · rw [h.refresh y d, hcurrent, Option.mem_toList, Or.comm]
    · cases hp
      rw [Option.mem_toList]
      exact h.apart used d hcurrent
  · have hprevious := ((h.refresh used d).mp hused).resolve_left hcurrent
    rw [if_neg hcurrent, hprevious]
    refine ⟨_, ⟨hnew, fun y => ?_, fun p hp => ?_⟩, rfl⟩
    · rw [h.refresh y d, hprevious, Option.mem_toList]
    · cases hp
      rw [Option.mem_toList]
      exact hcurrent

end

/-! ## Tokens used -/

/-- A refresh token is gone when the one given for it has been used. -/
structure Spent (t : Tables) (issued : SortedMap String Device) (exchanges : List (String × String)) : Prop where
  issued : ∀ a b, (a, b) ∈ exchanges → (issued.get a).isSome = true ∧ (issued.get b).isSome = true
  current : ∀ a b d, (a, b) ∈ exchanges → t.userdeviceidRefreshtoken.get d = some b →
    t.userdeviceidPrevrefreshtoken.get d = some a
  previous : ∀ a b d, (a, b) ∈ exchanges → t.userdeviceidPrevrefreshtoken.get d = some b →
    t.refreshtokenUserdeviceid.get a = none
  spent : ∀ a b c, (a, b) ∈ exchanges → (b, c) ∈ exchanges → t.refreshtokenUserdeviceid.get a = none

section
variable {t : Tables} {issued issued' : SortedMap String Device} {exchanges : List (String × String)} {d : Device}
  {current previous : Option String} {revoked : List String}

theorem isSome_of_extends (hext : ∀ x e, issued.get x = some e → issued'.get x = some e) {x : String}
    (hx : (issued.get x).isSome = true) : (issued'.get x).isSome = true := by
  obtain ⟨e, he⟩ := Option.isSome_iff_exists.mp hx
  exact Option.isSome_iff_exists.mpr ⟨e, hext x e he⟩

/-- A commit keeps what was used, when it does not make current what was given for a token
that is left. -/
theorem Spent.commit (h : Spent t issued exchanges) (hr : Rotation t d issued current previous revoked)
    (hext : ∀ x e, issued.get x = some e → issued'.get x = some e)
    (hprevious : ∀ a b, (a, b) ∈ exchanges → previous = some b →
      t.refreshtokenUserdeviceid.get a = none ∨ a ∈ revoked) :
    Spent (t.commitRefreshTokens d current previous revoked) issued' exchanges := by
  have hfresh : ∀ {x : String}, (issued.get x).isSome = true → current ≠ some x := by
    intro x hx hc
    rw [hr.fresh x hc] at hx
    cases hx
  have hgone : ∀ {x : String}, (issued.get x).isSome = true →
      t.refreshtokenUserdeviceid.get x = none ∨ x ∈ revoked →
      (t.commitRefreshTokens d current previous revoked).refreshtokenUserdeviceid.get x = none := by
    intro x hx h
    rw [get_commit, if_neg (hfresh hx)]
    split
    · rfl
    · exact h.resolve_right ‹_›
  refine ⟨fun a b hab => ?_, fun a b e hab hb => ?_, fun a b e hab hb => ?_, fun a b c hab hbc => ?_⟩
  · obtain ⟨ha, hb⟩ := h.issued a b hab
    exact ⟨isSome_of_extends hext ha, isSome_of_extends hext hb⟩
  · unfold Tables.commitRefreshTokens at hb ⊢
    by_cases he : e = d
    · subst he
      rw [get_setRow_self] at hb
      exact absurd hb (hfresh (h.issued a b hab).2)
    · rw [get_setRow_of_ne _ he] at hb ⊢
      exact h.current a b e hab hb
  · refine hgone (h.issued a b hab).1 ?_
    unfold Tables.commitRefreshTokens at hb
    by_cases he : e = d
    · subst he
      rw [get_setRow_self] at hb
      exact hprevious a b hab hb
    · rw [get_setRow_of_ne _ he] at hb
      exact .inl (h.previous a b e hab hb)
  · exact hgone (h.issued a b hab).1 (.inl (h.spent a b c hab hbc))

/-- A token used is given another, which has not been used. -/
theorem Spent.exchange (h : Spent t issued exchanges) (hs : Sound t issued) {used x : String}
    (hused : t.refreshtokenUserdeviceid.get used = some d) (hfresh : issued.get x = none)
    (hext : ∀ y e, issued.get y = some e → issued'.get y = some e) (hx : issued'.get x = some d) :
    Spent (t.rotateRefreshToken d used x) issued' (exchanges ++ [(used, x)]) := by
  obtain ⟨revoked, hr, heq⟩ := rotate_eq hs hused hfresh
  rw [heq]
  have hnew : ∀ c, some x = some c → issued'.get c = some d := by
    intro c hc
    cases hc
    exact hx
  have hsound := hs.commit hr hext hnew
  have hold : Spent (t.commitRefreshTokens d (some x) (some used) revoked) issued' exchanges := by
    refine h.commit hr hext fun a b hab hb => ?_
    cases hb
    rcases (hs.refresh used d).mp hused with hcurrent | hprevious
    · have ha := h.current a used d hab hcurrent
      refine .inr (((hr.tokens a).mp ((hs.refresh a d).mpr (.inr ha))).resolve_right fun heq => ?_)
      cases heq
      exact hs.apart used d hcurrent ha
    · exact .inl (h.previous a used d hab hprevious)
  have hprevious : (t.commitRefreshTokens d (some x) (some used) revoked).userdeviceidPrevrefreshtoken.get d =
      some used := get_setRow_self _ _ _
  have hcurrent : (t.commitRefreshTokens d (some x) (some used) revoked).userdeviceidRefreshtoken.get d = some x :=
    get_setRow_self _ _ _
  -- the new token is one of this device
  have hown : ∀ {e : Device}, (t.commitRefreshTokens d (some x) (some used) revoked).refreshtokenUserdeviceid.get
    x =
      some e → e = d := by
    intro e he
    rw [get_commit, if_pos rfl, Option.some.injEq] at he
    exact he.symm
  have hunused : ∀ {a b : String}, (a, b) ∈ exchanges → a ≠ x := by
    rintro a b hab rfl
    have hsome := (h.issued a b hab).1
    rw [hfresh] at hsome
    cases hsome
  refine ⟨fun a b hab => ?_, fun a b e hab hb => ?_, fun a b e hab hb => ?_, fun a b c hab hbc => ?_⟩
  · rcases List.mem_append.mp hab with hab | hab
    · exact hold.issued a b hab
    · cases List.mem_singleton.mp hab
      exact ⟨Option.isSome_iff_exists.mpr ⟨d, hext _ _ (hs.issued _ _ hused)⟩, Option.isSome_iff_exists.mpr ⟨d, hx⟩⟩
  · rcases List.mem_append.mp hab with hab | hab
    · exact hold.current a b e hab hb
    · cases List.mem_singleton.mp hab
      rw [hown ((hsound.refresh x e).mpr (.inl hb))]
      exact hprevious
  · rcases List.mem_append.mp hab with hab | hab
    · exact hold.previous a b e hab hb
    · cases List.mem_singleton.mp hab
      rw [hown ((hsound.refresh x e).mpr (.inr hb))] at hb
      exact absurd hb (hsound.apart x d hcurrent)
  · rcases List.mem_append.mp hab with hab | hab
    · rcases List.mem_append.mp hbc with hbc | hbc
      · exact hold.spent a b c hab hbc
      · cases List.mem_singleton.mp hbc
        exact hold.previous a _ d hab hprevious
    · cases List.mem_singleton.mp hab
      rcases List.mem_append.mp hbc with hbc | hbc
      · exact absurd rfl (hunused hbc)
      · have hissued := hs.issued _ _ hused
        rw [(Prod.mk.inj (List.mem_singleton.mp hbc)).1.symm, hfresh] at hissued
        cases hissued

end

/-! ## Access tokens -/

section
variable {t t' : Tables} {issued issued' : SortedMap String Device} {exchanges : List (String × String)}
  {d : Device}

theorem activeTokens_insert_self (m : SortedMap Device (List String)) (d : Device) (tokens : List String) :
    ((m.insert d tokens).get d).getD [] = tokens := by
  rw [SortedMap.get_insert_self, Option.getD_some]

theorem activeTokens_insert_of_ne (m : SortedMap Device (List String)) {d e : Device} (h : e ≠ d)
    (tokens : List String) : ((m.insert d tokens).get e).getD [] = (m.get e).getD [] := by
  rw [SortedMap.get_insert_of_ne _ _ h]

/-- The tables of refresh tokens are left as they were. -/
structure SameRefresh (t t' : Tables) : Prop where
  index : t'.refreshtokenUserdeviceid = t.refreshtokenUserdeviceid
  current : t'.userdeviceidRefreshtoken = t.userdeviceidRefreshtoken
  previous : t'.userdeviceidPrevrefreshtoken = t.userdeviceidPrevrefreshtoken

theorem Spent.keep (h : Spent t issued exchanges) (hsame : SameRefresh t t')
    (hext : ∀ x e, issued.get x = some e → issued'.get x = some e) : Spent t' issued' exchanges := by
  refine ⟨fun a b hab => ?_, ?_, ?_, ?_⟩
  · obtain ⟨ha, hb⟩ := h.issued a b hab
    exact ⟨isSome_of_extends hext ha, isSome_of_extends hext hb⟩
  · rw [hsame.current, hsame.previous]
    exact h.current
  · rw [hsame.previous, hsame.index]
    exact h.previous
  · rw [hsame.index]
    exact h.spent

theorem Sound.keep (h : Sound t issued) (hsame : SameRefresh t t')
    (hext : ∀ x e, issued.get x = some e → issued'.get x = some e)
    (haccess : ∀ x d, t'.tokenUserdeviceid.get x = some d →
      (x ≠ "" → issued'.get x = some d) ∧ x ∈ t'.activeTokens d) :
    Sound t' issued' := by
  refine ⟨haccess, ?_, ?_, ?_⟩
  · rw [hsame.index, hsame.current, hsame.previous]
    exact h.refresh
  · rw [hsame.current, hsame.previous]
    exact h.apart
  · rw [hsame.index]
    exact fun x d hget => hext x d (h.issued x d hget)

theorem Touches.ofAccess (hsame : SameRefresh t t') (haccess : ∀ x e, t'.tokenUserdeviceid.get x = some e →
    t.tokenUserdeviceid.get x = some e ∨ e = d ∧ (x ≠ "" → issued.get x = none)) : Touches d issued t t' := by
  refine ⟨haccess, ?_, ?_⟩
  · rw [hsame.index]
    exact fun x e => .inl
  · rw [hsame.index]
    exact fun x e _ hget => hget

theorem store_ok {token : String} {ttl : Option Nat} {now : Nat} {conflicts : Bool} (h : Sound t issued)
    (hstore : t.storeAccessToken d token ttl now conflicts = .ok t') (hfresh : token ≠ "" → issued.get token = none)
    (hext : ∀ x e, issued.get x = some e → issued'.get x = some e)
    (hnew : token ≠ "" → issued'.get token = some d) :
    Sound t' issued' ∧ Touches d issued t t' ∧ SameRefresh t t' := by
  unfold Tables.storeAccessToken at hstore
  split at hstore
  · cases hstore
  · split at hstore
    · cases hstore
    · split at hstore
      · cases hstore
        refine ⟨h.keep ⟨rfl, rfl, rfl⟩ hext fun x e hget => ?_, .refl d issued t, ⟨rfl, rfl, rfl⟩⟩
        exact ⟨fun hx => hext x e ((h.access x e hget).1 hx), (h.access x e hget).2⟩
      · cases hstore
        have hindex : ∀ {x : String} {e : Device}, (t.tokenUserdeviceid.insert token d).get x = some e →
            x = token ∧ e = d ∨ x ≠ token ∧ t.tokenUserdeviceid.get x = some e := by
          intro x e hget
          by_cases hx : x = token
          · rw [hx, SortedMap.get_insert_self, Option.some.injEq] at hget
            exact .inl ⟨hx, hget.symm⟩
          · rw [SortedMap.get_insert_of_ne _ _ hx] at hget
            exact .inr ⟨hx, hget⟩
        refine ⟨h.keep ⟨rfl, rfl, rfl⟩ hext fun x e hget => ?_, .ofAccess ⟨rfl, rfl, rfl⟩ fun x e hget => ?_,
          ⟨rfl, rfl, rfl⟩⟩
        · rcases hindex hget with ⟨rfl, rfl⟩ | ⟨hx, hget⟩
          · refine ⟨hnew, ?_⟩
            rw [Tables.activeTokens, activeTokens_insert_self]
            exact List.mem_append_right _ (List.mem_singleton_self x)
          · obtain ⟨hissued, hmem⟩ := h.access x e hget
            refine ⟨fun hx => hext x e (hissued hx), ?_⟩
            by_cases he : e = d
            · rw [he] at hmem
              rw [he, Tables.activeTokens, activeTokens_insert_self]
              exact List.mem_append_left _ hmem
            · rw [Tables.activeTokens, activeTokens_insert_of_ne _ he]
              exact hmem
        · rcases hindex hget with ⟨rfl, rfl⟩ | ⟨-, hget⟩
          · exact .inr ⟨rfl, hfresh⟩
          · exact .inl hget

theorem get_of_remove {m : SortedMap String Device} {token x : String} {e : Device}
    (h : (m.remove token).get x = some e) : x ≠ token ∧ m.get x = some e := by
  by_cases hx : x = token
  · rw [hx, SortedMap.get_remove_self] at h
    cases h
  · rw [SortedMap.get_remove_of_ne _ hx] at h
    exact ⟨hx, h⟩

theorem remove_ok (h : Sound t issued) (d : Device) (token : String) {x : String} {e : Device}
    (hget : (t.removeAccessToken d token).tokenUserdeviceid.get x = some e) :
    t.tokenUserdeviceid.get x = some e ∧ x ∈ (t.removeAccessToken d token).activeTokens e := by
  obtain ⟨hx, hget⟩ := get_of_remove hget
  have hmem := (h.access x e hget).2
  refine ⟨hget, ?_⟩
  by_cases he : e = d
  · rw [he] at hmem
    rw [he, Tables.activeTokens, Tables.removeAccessToken, activeTokens_insert_self]
    exact List.mem_filter.mpr ⟨hmem, decide_eq_true hx⟩
  · rw [Tables.activeTokens, Tables.removeAccessToken, activeTokens_insert_of_ne _ he]
    exact hmem

end

/-! ## Calls -/

def Fits (t : Tables) (issued : SortedMap String Device) (c : Call) : Prop :=
  match c.stage with
  | .locking d | .waiting d | .entered d => ∀ used, c.request = .refresh used → issued.get used = some d
  | .superseding d _ | .storing d => ∀ used, c.request = .refresh used →
      t.refreshtokenUserdeviceid.get used = some d
  | .rotating d used _ => t.refreshtokenUserdeviceid.get used = some d
  | .unlisting d _ rest | .unexpiring d _ rest => ∀ x, t.tokenUserdeviceid.get x = some d → x ∈ rest
  | .revoking d => ∀ x, t.tokenUserdeviceid.get x ≠ some d
  | .closing d => ∀ x, t.tokenUserdeviceid.get x ≠ some d ∧ t.refreshtokenUserdeviceid.get x ≠ some d
  | _ => True

def callUse : MutexMap.Use String Call where
  ref c := c.lock.bind fun i => c.stage.device.map fun d => (i, deviceLockKey d)
  critical c := c.stage.holds.isSome

/-- The invariant of the runs. -/
structure Inv (s : World) : Prop where
  held : MutexMap.Held callUse s.locks s.calls
  sound : Sound s.tables s.issued
  spent : Spent s.tables s.issued s.exchanges
  fits : ∀ c ∈ s.calls, Fits s.tables s.issued c

/-- A step keeps the invariant, and changes the rows of one device. -/
structure Advances (s s' : World) : Prop where
  inv : Inv s'
  touches : ∃ d, Touches d s.issued s.tables s'.tables
  issued : ∀ x e, s.issued.get x = some e → s'.issued.get x = some e

section
variable {t t' : Tables} {issued issued' : SortedMap String Device} {s s' : World} {k : Nat} {c : Call} {d : Device}

theorem Fits.frame (h : Fits t issued c) (htouches : Touches d issued t t') (hother : c.stage.holds ≠ some d)
    (hext : ∀ x e, issued.get x = some e → issued'.get x = some e) : Fits t' issued' c := by
  obtain ⟨request, stage⟩ := c
  have hne : ∀ {e : Device}, stage.holds = some e → e ≠ d := by
    rintro e he rfl
    exact hother he
  have haccess : ∀ {x : String} {e : Device}, e ≠ d → t'.tokenUserdeviceid.get x = some e →
      t.tokenUserdeviceid.get x = some e := fun he hget => (htouches.access _ _ hget).resolve_right fun h => he h.1
  cases stage with
  | locking e | waiting e | entered e => exact fun used hused => hext used e (h used hused)
  | superseding e rest | storing e => exact fun used hused => htouches.kept used e (hne rfl) (h used hused)
  | rotating e used access => exact htouches.kept used e (hne rfl) h
  | unlisting e any rest | unexpiring e token rest => exact fun x hget => h x (haccess (hne rfl) hget)
  | revoking e => exact fun x hget => h x (haccess (hne rfl) hget)
  | closing e =>
    refine fun x => ⟨fun hget => (h x).1 (haccess (hne rfl) hget), fun hget => (h x).2 ?_⟩
    exact (htouches.refresh x e hget).resolve_right fun hd => hne rfl hd.1
  | called | issuing e access | returning e answer | leaving e answer | answered answer | gone => trivial

theorem device_of_holds {stage : Stage} (h : stage.holds = some d) : stage.device = some d := by
  cases stage with
  | waiting e | leaving e answer => cases h
  | _ => exact h

theorem Inv.ref_of_holds (h : Inv s) (hk : s.calls[k]? = some c) (hd : c.stage.holds = some d) :
    ∃ i, callUse.ref c = some (i, deviceLockKey d) := by
  have href := h.held.critical c (List.mem_of_getElem? hk) (by simp [callUse, hd])
  simp only [callUse, device_of_holds hd] at href ⊢
  cases hlock : c.lock with
  | none => simp [hlock] at href
  | some i => exact ⟨i, rfl⟩

theorem Inv.other (h : Inv s) (hk : s.calls[k]? = some c) (hd : c.stage.holds = some d) {j : Nat} {b : Call}
    (hj : j ≠ k) (hb : s.calls[j]? = some b) : b.stage.holds ≠ some d := by
  intro hbd
  obtain ⟨i, hi⟩ := h.ref_of_holds hk hd
  obtain ⟨i', hi'⟩ := h.ref_of_holds hb hbd
  exact hj (h.held.exclusive hb hk (by simp [callUse, hbd]) (by simp [callUse, hd]) hi' hi)

theorem Advances.go (h : Inv s) (hk : s.calls[k]? = some c) (hd : c.stage.holds = some d) {q : Stage}
    (hcalls : s'.calls = s.calls.set k { c with stage := q }) (hlocks : s'.locks = s.locks)
    (hq : q.holds = some d) (htouches : Touches d s.issued s.tables s'.tables)
    (hext : ∀ x e, s.issued.get x = some e → s'.issued.get x = some e) (hsound : Sound s'.tables s'.issued)
    (hspent : Spent s'.tables s'.issued s'.exchanges)
    (hfits : Fits s'.tables s'.issued { c with stage := q }) : Advances s s' := by
  refine ⟨⟨?_, hsound, hspent, fun b hb => ?_⟩, ⟨d, htouches⟩, hext⟩
  · rw [hcalls, hlocks]
    have href : callUse.ref { c with stage := q } = callUse.ref c := by
      simp only [callUse, device_of_holds hd, device_of_holds hq]
    exact h.held.goOn hk (.inl href) fun _ => ⟨by simp [callUse, hd], href⟩
  · rw [hcalls] at hb
    rcases mem_set_of_some hk hb with rfl | ⟨j, hj, hb⟩
    · exact hfits
    · exact (h.fits b (List.mem_of_getElem? hb)).frame htouches (h.other hk hd hj hb) hext

end

end Congruent.DeviceTokens
