import Congruent.DeviceTokenRuns

/-!
# Rotation and logout

Whatever calls do at a time, a refresh token goes when the one given for it is used, and a
device that was removed leaves no token behind.
-/

namespace Congruent.DeviceTokens

section
variable {s s' : World} {a : Action} {k : Nat} {c : Call} {d : Device} {q : Stage} {env : Env}

theorem Advances.move (h : Inv s) (hk : s.calls[k]? = some c) (hd : c.stage.holds = some d)
    (hstage : q.holds = some d) (hfits : Fits s.tables s.issued { c with stage := q }) :
    Advances s (s.setStage k c q) :=
  .go h hk hd rfl rfl hstage (.refl d s.issued s.tables) (fun _ _ h => h) h.sound h.spent hfits

theorem Advances.leave (h : Inv s) (hk : s.calls[k]? = some c) (hd : c.stage.holds = some d)
    (answer : Except Err Answer) : Advances s (s.leave k c d answer) :=
  .move h hk hd rfl trivial

theorem Advances.idle (h : Inv s) (hk : s.calls[k]? = some c) {c' : Call} {locks : MutexMap String}
    (hheld : MutexMap.Held callUse locks (s.calls.set k c')) (hfits : Fits s.tables s.issued c') :
    Advances s { s with calls := s.calls.set k c', locks := locks } := by
  refine ⟨⟨hheld, h.sound, h.spent, fun b hb => ?_⟩, ⟨toLex ("", ""), .refl _ _ _⟩, fun _ _ h => h⟩
  rcases mem_set_of_some hk hb with rfl | ⟨j, -, hj⟩
  · exact hfits
  · exact h.fits b (List.mem_of_getElem? hj)

theorem Advances.unlocked (h : Inv s) (hk : s.calls[k]? = some c) (hq : q.device = none)
    (hfits : Fits s.tables s.issued { c with stage := q }) : Advances s (s.setStage k c q) := by
  have href : callUse.ref { c with stage := q } = none := by
    simp only [callUse, hq, Option.map_none]
    cases c.lock <;> rfl
  refine .idle h hk (h.held.goOn hk (.inr href) fun hc => ?_) hfits
  obtain ⟨d, hd⟩ := Option.isSome_iff_exists.mp hc
  cases hq.symm.trans (device_of_holds hd)

theorem Advances.relock (h : Inv s) (hk : s.calls[k]? = some c) (hd : c.stage.device = some d) {i : Nat}
    (hi : c.lock = some i) {la : MutexMap.Action String} (hla : la.index = some i) {locks : MutexMap String}
    (hlock : MutexMap.step la s.locks = some locks) (hq : q.device = some d ∨ q.device = none)
    (hcrit : q.holds.isSome = true → la = .acquire i)
    (hfits : Fits s.tables s.issued { c with stage := q }) :
    Advances s { s.setStage k c q with locks := locks } := by
  have hp : callUse.ref c = some (i, deviceLockKey d) := by simp only [callUse, hi, hd]; rfl
  have href : callUse.ref { c with stage := q } = callUse.ref c ∨ callUse.ref { c with stage := q } = none := by
    refine hq.imp (fun hq => ?_) fun hq => ?_
    · simp only [callUse, hq, hd]
    · simp only [callUse, hi, hq]
      rfl
  refine .idle h hk (h.held.move hk hp hla hlock href fun hc => ⟨hcrit hc, ?_⟩) hfits
  obtain ⟨e, he⟩ := Option.isSome_iff_exists.mp hc
  refine href.resolve_right fun hnone => ?_
  simp only [callUse, hi, device_of_holds he] at hnone
  cases hnone

theorem Advances.access (h : Inv s) (hk : s.calls[k]? = some c) (hd : c.stage.holds = some d)
    (hcalls : s'.calls = s.calls.set k { c with stage := q }) (hlocks : s'.locks = s.locks) (hq : q.holds = some d)
    (hissued : s'.issued = s.issued) (hexchanges : s'.exchanges = s.exchanges)
    (hsame : SameRefresh s.tables s'.tables) (hrows : ∀ x e, s'.tables.tokenUserdeviceid.get x = some e →
      s.tables.tokenUserdeviceid.get x = some e ∧ x ∈ s'.tables.activeTokens e)
    (hfits : Fits s'.tables s.issued { c with stage := q }) : Advances s s' := by
  have hext : ∀ x e, s.issued.get x = some e → s'.issued.get x = some e := fun x e hx => by rw [hissued, hx]
  refine .go h hk hd hcalls hlocks hq (.ofAccess hsame fun x e hget => .inl (hrows x e hget).1) hext
    (h.sound.keep hsame hext fun x e hget => ?_) ?_ (hissued ▸ hfits)
  · obtain ⟨hget, hmem⟩ := hrows x e hget
    exact ⟨fun hx => hext x e ((h.sound.access x e hget).1 hx), hmem⟩
  · rw [hexchanges]
    exact h.spent.keep hsame hext

theorem Advances.createDevice (h : Inv s) (hk : s.calls[k]? = some c) (hd : c.stage.holds = some d)
    (hreq : ∀ used, c.request ≠ .refresh used) : Advances s (createDevice env s k c d) := by
  unfold DeviceTokens.createDevice
  split
  · exact .access (q := .storing d) h hk hd rfl rfl rfl rfl rfl ⟨rfl, rfl, rfl⟩
      (fun x e hget => ⟨hget, (h.sound.access x e hget).2⟩) fun used hused => absurd hused (hreq used)
  · exact .leave h hk hd _

theorem Advances.enter (h : Inv s) (hk : s.calls[k]? = some c) (hstage : c.stage = .entered d) :
    Advances s (enter env s k c d) := by
  have hd : c.stage.holds = some d := by rw [hstage]; rfl
  have hfits := h.fits c (List.mem_of_getElem? hk)
  rw [Fits, hstage] at hfits
  unfold DeviceTokens.enter
  split
  · rename_i hreq
    refine .createDevice h hk hd fun used hused => ?_
    cases hreq.symm.trans hused
  · rename_i hreq
    have hrefresh : ∀ used, c.request ≠ .refresh used := fun used hused => by cases hreq.symm.trans hused
    split
    · exact .move h hk hd rfl fun used hused => absurd hused (hrefresh used)
    · exact .createDevice h hk hd hrefresh
  · rename_i hreq
    exact .move h hk hd rfl fun used hused => by cases hreq.symm.trans hused
  · exact .move h hk hd rfl trivial
  · rename_i token hreq
    split
    · exact .leave h hk hd _
    · rename_i e hget
      split
      · exact .leave h hk hd _
      · exact .leave h hk hd _
      · refine .move h hk hd rfl fun used hused => ?_
        cases hreq.symm.trans hused
        -- the token has not changed its device since it was looked up
        have hissued := (hfits token hreq).symm.trans (h.sound.issued token e hget)
        rw [hget, Option.some.inj hissued]
  · exact .move h hk hd rfl fun x hget => (h.sound.access x d hget).2

/-! ## New tokens -/

theorem isNew_iff {token : String} : s.isNew token = true ↔ token ≠ "" ∧ s.issued.get token = none := by
  simp [World.isNew]

theorem new_of_storing (hk : s.calls[k]? = some c) (hok : fresh (.proceed k env) s = true)
    (hstage : c.stage = .storing d) (hne : c.request.accessToken env ≠ "") :
    s.issued.get (c.request.accessToken env) = none := by
  obtain ⟨request, stage⟩ := c
  cases hstage
  simp only [fresh, hk, Option.all_some] at hok
  cases request with
  | create e token ttl =>
    rcases Bool.or_eq_true_iff.mp hok with hempty | hnew
    · exact absurd (of_decide_eq_true hempty) hne
    · exact (isNew_iff.mp hnew).2
  | login | set | issue | refresh | remove => exact (isNew_iff.mp hok).2

theorem new_of_issuing {access : Option String} (hk : s.calls[k]? = some c) (hok : fresh (.proceed k env) s = true)
    (hstage : c.stage = .issuing d access) : env.token ≠ "" ∧ s.issued.get env.token = none := by
  simp only [fresh, hk, Option.all_some, hstage] at hok
  exact isNew_iff.mp hok

theorem new_of_rotating {used access : String} (hk : s.calls[k]? = some c) (hok : fresh (.proceed k env) s = true)
    (hstage : c.stage = .rotating d used access) : env.token ≠ "" ∧ s.issued.get env.token = none := by
  simp only [fresh, hk, Option.all_some, hstage] at hok
  exact isNew_iff.mp hok

theorem apart_of_locking (hk : s.calls[k]? = some c) (hok : apart (.proceed k env) s = true)
    (hstage : c.stage = .locking d) : MutexMap.apart (.lock (deviceLockKey d)) s.locks = true := by
  simpa only [apart, hk, Option.all_some, hstage] using hok

theorem issue_self (s : World) (d : Device) {token : String} (h : token ≠ "") :
    (s.issue d token).get token = some d := by
  rw [World.issue, if_neg h]
  exact SortedMap.get_insert_self _ _ _

theorem issue_keeps {token : String} (h : token ≠ "" → s.issued.get token = none) (d : Device) (x : String)
    (e : Device) (hx : s.issued.get x = some e) : (s.issue d token).get x = some e := by
  unfold World.issue
  split
  · exact hx
  · rename_i htoken
    refine (SortedMap.get_insert_of_ne _ _ ?_).trans hx
    rintro rfl
    rw [h htoken] at hx
    cases hx

/-! ## Steps -/

theorem Advances.commit (h : Inv s) (hk : s.calls[k]? = some c) (hd : c.stage.holds = some d)
    {v : Option String} (hfresh : ∀ x, v = some x → s.issued.get x = none)
    (hcalls : s'.calls = s.calls.set k { c with stage := q }) (hlocks : s'.locks = s.locks) (hq : q.holds = some d)
    (htables : s'.tables = s.tables.commitRefreshTokens d v none (s.tables.refreshTokens d))
    (hext : ∀ x e, s.issued.get x = some e → s'.issued.get x = some e)
    (hnew : ∀ x, v = some x → s'.issued.get x = some d) (hexchanges : s'.exchanges = s.exchanges)
    (hfits : Fits s'.tables s'.issued { c with stage := q }) : Advances s s' := by
  have hr := Rotation.all (d := d) h.sound hfresh
  refine .go h hk hd hcalls hlocks hq ?_ hext ?_ ?_ hfits
  · rw [htables]
    exact .commit h.sound hr
  · rw [htables]
    exact h.sound.commit hr hext hnew
  · rw [htables, hexchanges]
    exact h.spent.commit hr hext fun a b _ hb => by cases hb

theorem Advances.stored (h : Inv s) (hk : s.calls[k]? = some c) (hstage : c.stage = .storing d)
    {token : String} (hfresh : token ≠ "" → s.issued.get token = none) {t : Tables}
    (hstore : s.tables.storeAccessToken d token (c.request.ttl env) env.now env.conflicts = .ok t) :
    Advances s (stored { s with tables := t, issued := s.issue d token } k c d token) := by
  have hd : c.stage.holds = some d := by rw [hstage]; rfl
  have hfits := h.fits c (List.mem_of_getElem? hk)
  rw [Fits, hstage] at hfits
  have hext := issue_keeps hfresh d
  obtain ⟨hsound, htouches, hsame⟩ := store_ok h.sound hstore hfresh hext (issue_self s d)
  have hspent := h.spent.keep hsame hext
  unfold DeviceTokens.stored
  split
  · exact .go (q := .issuing d _) h hk hd rfl rfl rfl htouches hext hsound hspent trivial
  · rename_i used hreq
    refine .go (q := .rotating d used _) h hk hd rfl rfl rfl htouches hext hsound hspent ?_
    exact (congrArg (fun index => index.get used) hsame.index).trans (hfits used hreq)
  · exact .go (q := .returning d _) h hk hd rfl rfl rfl htouches hext hsound hspent trivial

theorem Advances.proceed (h : Inv s) (hk : s.calls[k]? = some c)
    (hok : fresh (.proceed k env) s = true ∧ apart (.proceed k env) s = true) (hs : proceed env s k c = some s') :
    Advances s s' := by
  have hfits := h.fits c (List.mem_of_getElem? hk)
  unfold DeviceTokens.proceed at hs
  split at hs
  · rename_i hstage
    split at hs
    · rename_i token hreq
      split at hs
      · cases hs
        exact .unlocked h hk rfl trivial
      · rename_i d hget
        cases hs
        refine .unlocked h hk rfl fun used hused => ?_
        cases hreq.symm.trans hused
        exact h.sound.issued token d hget
    all_goals
      rename_i hreq
      cases hs
      exact .unlocked h hk rfl fun used hused => by cases hreq.symm.trans hused
  · rename_i d hstage
    obtain ⟨locks, hlock, rfl⟩ := Option.map_eq_some_iff.mp hs
    rw [Fits, hstage] at hfits
    exact .idle h hk (h.held.lock hk (apart_of_locking hk hok.2 hstage) hlock rfl rfl) hfits
  · rename_i d hstage
    obtain ⟨i, hi, hs⟩ := Option.bind_eq_some_iff.mp hs
    obtain ⟨locks, hlock, rfl⟩ := Option.map_eq_some_iff.mp hs
    rw [Fits, hstage] at hfits
    exact .relock h hk (by rw [hstage]; rfl) hi rfl hlock (.inl rfl) (fun _ => rfl) hfits
  · rename_i d hstage
    cases hs
    exact .enter h hk hstage
  · rename_i d old rest hstage
    cases hs
    rw [Fits, hstage] at hfits
    exact .access (q := .superseding d rest) h hk (by rw [hstage]; rfl) rfl rfl rfl rfl rfl ⟨rfl, rfl, rfl⟩
      (fun x e => remove_ok h.sound d old) hfits
  · rename_i d hstage
    cases hs
    rw [Fits, hstage] at hfits
    exact .move h hk (by rw [hstage]; rfl) rfl hfits
  · rename_i d hstage
    have hd : c.stage.holds = some d := by rw [hstage]; rfl
    dsimp only at hs
    split at hs
    · cases hs
      exact .leave h hk hd _
    · rename_i t hstore
      cases hs
      exact .stored h hk hstage (new_of_storing hk hok.1 hstage) hstore
  · rename_i d access hstage
    cases hs
    obtain ⟨hne, hfresh⟩ := new_of_issuing hk hok.1 hstage
    refine .commit (v := some env.token) (q := .returning d _) h hk (by rw [hstage]; rfl) (fun x hx => ?_) rfl
      rfl rfl rfl (issue_keeps (fun _ => hfresh) d) (fun x hx => ?_) rfl trivial
    · cases hx
      exact hfresh
    · cases hx
      exact issue_self s d hne
  · rename_i d used access hstage
    cases hs
    rw [Fits, hstage] at hfits
    obtain ⟨hne, hfresh⟩ := new_of_rotating hk hok.1 hstage
    have hext := issue_keeps (fun _ => hfresh) d
    have hnew := issue_self s d hne
    obtain ⟨revoked, hr, heq⟩ := rotate_eq h.sound hfits hfresh
    refine .go (q := .returning d _) h hk (by rw [hstage]; rfl) rfl rfl rfl ?_ hext ?_
      (h.spent.exchange h.sound hfits hfresh hext hnew) trivial
    · simp only [heq]
      exact .commit h.sound hr
    · simp only [heq]
      refine h.sound.commit hr hext fun x hx => ?_
      cases hx
      exact hnew
  · rename_i d any token rest hstage
    cases hs
    rw [Fits, hstage] at hfits
    refine .access (q := .unexpiring d token rest) h hk (by rw [hstage]; rfl) rfl rfl rfl rfl rfl
      ⟨rfl, rfl, rfl⟩ (fun x e hget => ?_) fun x hget => ?_
    · have hget := (get_of_remove hget).2
      exact ⟨hget, (h.sound.access x e hget).2⟩
    obtain ⟨hne, hget⟩ := get_of_remove hget
    exact (List.mem_cons.mp (hfits x hget)).resolve_left hne
  · rename_i d token rest hstage
    cases hs
    rw [Fits, hstage] at hfits
    exact .access (q := .unlisting d true rest) h hk (by rw [hstage]; rfl) rfl rfl rfl rfl rfl
      ⟨rfl, rfl, rfl⟩ (fun x e hget => ⟨hget, (h.sound.access x e hget).2⟩) hfits
  · rename_i d any hstage
    cases hs
    rw [Fits, hstage] at hfits
    -- no row of the index is the device's any more
    have hnone : ∀ x, s.tables.tokenUserdeviceid.get x ≠ some d := fun x hget => by cases hfits x hget
    refine .access (q := .revoking d) h hk (by rw [hstage]; rfl) rfl rfl rfl rfl rfl ⟨rfl, rfl, rfl⟩
      (fun x e hget => ⟨hget, ?_⟩) hnone
    have hmem := (h.sound.access x e hget).2
    have he : e ≠ d := by
      rintro rfl
      exact hnone x hget
    cases any with
    | true =>
      rw [Tables.activeTokens]
      simp only [if_true]
      rw [SortedMap.get_remove_of_ne _ he]
      exact hmem
    | false => exact hmem
  · rename_i d hstage
    cases hs
    rw [Fits, hstage] at hfits
    refine .commit (q := .closing d) (v := none) h hk (by rw [hstage]; rfl) (fun x hx => by cases hx) rfl
      rfl rfl rfl (fun _ _ h => h) (fun x hx => by cases hx) rfl fun x => ⟨hfits x, ?_⟩
    have hr := Rotation.all (d := d) (v := none) h.sound fun x hx => by cases hx
    rw [Tables.removeRefreshToken, get_commit, if_neg (Option.some_ne_none x).symm]
    split
    · exact (Option.some_ne_none d).symm
    · rename_i hx
      exact fun hget => hx (((hr.tokens x).mp hget).resolve_right (Option.some_ne_none x).symm)
  · rename_i d hstage
    cases hs
    exact .access (q := .returning d _) h hk (by rw [hstage]; rfl) rfl rfl rfl rfl rfl ⟨rfl, rfl, rfl⟩
      (fun x e hget => ⟨hget, (h.sound.access x e hget).2⟩) trivial
  all_goals cases hs

theorem Advances.drop (h : Inv s) (hk : s.calls[k]? = some c) (hs : s.drop k c = some s') : Advances s s' := by
  obtain ⟨request, stage, lock⟩ := c
  have hleave : ∀ {d : Device} {i : Nat} {locks : MutexMap String} (answer : Option (Except Err Answer)),
      stage.holds = some d → lock = some i → MutexMap.step (.drop i) s.locks = some locks →
      Advances s { s.setStage k ⟨request, stage, lock⟩ (.leaving d answer) with locks := locks } :=
    fun answer hd hi hlock => .relock h hk (device_of_holds hd) hi rfl hlock (.inl rfl)
      (fun hc => by cases hc) trivial
  unfold World.drop at hs
  split at hs
  · cases hs
    exact .unlocked h hk rfl trivial
  · cases hs
    exact .unlocked h hk rfl trivial
  · rename_i d i hstage hi
    obtain ⟨locks, hlock, rfl⟩ := Option.map_eq_some_iff.mp hs
    exact .relock h hk (by rw [hstage]; rfl) hi rfl hlock (.inr rfl) (fun hc => by cases hc) trivial
  · rename_i hd hi _ _ _
    obtain ⟨locks, hlock, rfl⟩ := Option.map_eq_some_iff.mp hs
    exact hleave _ hd hi hlock
  · cases hs

theorem Advances.step (h : Inv s) (hok : fresh a s = true ∧ apart a s = true) (hs : step a s = some s') :
    Advances s s' := by
  cases a with
  | call request =>
    cases hs
    refine ⟨⟨h.held.add rfl rfl, h.sound, h.spent, fun b hb => ?_⟩, ⟨toLex ("", ""), .refl _ _ _⟩, fun _ _ h => h⟩
    rcases List.mem_append.mp hb with hb | hb
    · exact h.fits b hb
    · cases List.mem_singleton.mp hb
      trivial
  | proceed k env =>
    obtain ⟨c, hk, hs⟩ := Option.bind_eq_some_iff.mp hs
    exact .proceed h hk hok hs
  | drop k =>
    obtain ⟨c, hk, hs⟩ := Option.bind_eq_some_iff.mp hs
    exact .drop h hk hs
  | unlist k =>
    obtain ⟨c, hk, hs⟩ := Option.bind_eq_some_iff.mp hs
    split at hs
    · rename_i d answer i hstage hi
      obtain ⟨locks, hlock, rfl⟩ := Option.map_eq_some_iff.mp hs
      exact .relock h hk (by rw [hstage]; rfl) hi rfl hlock (.inl rfl) (fun hc => by cases hc) trivial
    · cases hs
  | release k =>
    obtain ⟨c, hk, hs⟩ := Option.bind_eq_some_iff.mp hs
    split at hs
    · rename_i d answer i hstage hi
      obtain ⟨locks, hlock, rfl⟩ := Option.map_eq_some_iff.mp hs
      have hend : (answer.elim Stage.gone .answered).device = none ∧
          (answer.elim Stage.gone .answered).holds = none := by
        cases answer <;> exact ⟨rfl, rfl⟩
      refine .relock h hk (by rw [hstage]; rfl) hi rfl hlock (.inr hend.1) (fun hc => ?_) ?_
      · rw [hend.2] at hc
        cases hc
      · cases answer <;> trivial
    · cases hs
  | restart =>
    cases hs
    exact ⟨⟨MutexMap.held_new, h.sound, h.spent, fun c hc => by cases hc⟩,
      ⟨toLex ("", ""), .refl _ _ _⟩, fun _ _ h => h⟩

/-! ## Runs -/

theorem inv_new : Inv .new := by
  refine ⟨MutexMap.held_new, ⟨fun x d hget => ?_, fun x d => ?_, fun x d hget => ?_, fun x d hget => ?_⟩,
    ⟨fun a b hab => ?_, fun a b d hab => ?_, fun a b d hab => ?_, fun a b c hab => ?_⟩, fun c hc => ?_⟩
  · cases hget
  · refine ⟨fun hget => ?_, fun hget => ?_⟩
    · cases hget
    · rcases hget with hget | hget
      · cases hget
      · cases hget
  · cases hget
  · cases hget
  · cases hab
  · cases hab
  · cases hab
  · cases hab
  · cases hc

theorem inv_reaches (h : Reaches step (fun a s => fresh a s = true ∧ apart a s = true) .new s) : Inv s :=
  h.invariant inv_new fun _ _ _ hinv hok hs => (Advances.step hinv hok hs).inv

/-- A token that was given out and is accepted no longer. -/
structure Revoked (s : World) (x : String) : Prop where
  nonempty : x ≠ ""
  issued : ∃ d, s.issued.get x = some d
  access : s.tables.tokenUserdeviceid.get x = none
  refresh : s.tables.refreshtokenUserdeviceid.get x = none

theorem Revoked.advance {x : String} (h : Revoked s x) (hs : Advances s s') : Revoked s' x := by
  obtain ⟨d, hissued⟩ := h.issued
  obtain ⟨e, htouches⟩ := hs.touches
  have hnew : s.issued.get x ≠ none := by
    rw [hissued]
    exact Option.some_ne_none d
  refine ⟨h.nonempty, ⟨d, hs.issued x d hissued⟩, Option.eq_none_iff_forall_ne_some.mpr fun e' hget => ?_,
    Option.eq_none_iff_forall_ne_some.mpr fun e' hget => ?_⟩
  · rcases htouches.access x e' hget with hget | ⟨-, hfresh⟩
    · rw [h.access] at hget
      cases hget
    · exact hnew (hfresh h.nonempty)
  · rcases htouches.refresh x e' hget with hget | ⟨-, hfresh⟩
    · rw [h.refresh] at hget
      cases hget
    · exact hnew hfresh

/-- A device is found by exactly its two refresh tokens. The token used last stays until the
one given for it is used in turn, and goes then. -/
theorem refresh_rotation (h : Reaches step (fun a s => fresh a s = true ∧ apart a s = true) .new s) :
    (∀ x d, s.tables.refreshtokenUserdeviceid.get x = some d ↔
      s.tables.userdeviceidRefreshtoken.get d = some x ∨ s.tables.userdeviceidPrevrefreshtoken.get d = some x) ∧
    (∀ a b d, (a, b) ∈ s.exchanges → s.tables.userdeviceidRefreshtoken.get d = some b →
      s.tables.refreshtokenUserdeviceid.get a = some d) ∧
    ∀ a b c, (a, b) ∈ s.exchanges → (b, c) ∈ s.exchanges → s.tables.refreshtokenUserdeviceid.get a = none := by
  have hinv := inv_reaches h
  refine ⟨hinv.sound.refresh, fun a b d hab hb => ?_, hinv.spent.spent⟩
  exact (hinv.sound.refresh a d).mpr (.inr (hinv.spent.current a b d hab hb))

/-- When a removal has revoked the tokens of its device, none is left, and none that was given
out before is ever accepted again. -/
theorem logout_is_final (h : Reaches step (fun a s => fresh a s = true ∧ apart a s = true) .new s)
    (hk : s.calls[k]? = some c)
    (hstage : c.stage = .closing d) :
    (∀ x, s.tables.tokenUserdeviceid.get x ≠ some d ∧ s.tables.refreshtokenUserdeviceid.get x ≠ some d) ∧
    ∀ s', Reaches step (fun a s => fresh a s = true ∧ apart a s = true) s s' → ∀ x, x ≠ "" →
      s.issued.get x = some d →
      s'.tables.tokenUserdeviceid.get x = none ∧ s'.tables.refreshtokenUserdeviceid.get x = none := by
  have hinv := inv_reaches h
  have hnone := hinv.fits c (List.mem_of_getElem? hk)
  rw [Fits, hstage] at hnone
  refine ⟨hnone, fun s' hs' x hne hissued => ?_⟩
  -- a row of the token would be the device's
  have hgone : Revoked s x := by
    refine ⟨hne, ⟨d, hissued⟩, Option.eq_none_iff_forall_ne_some.mpr fun e hget => ?_,
      Option.eq_none_iff_forall_ne_some.mpr fun e hget => ?_⟩
    · cases hissued.symm.trans ((hinv.sound.access x e hget).1 hne)
      exact (hnone x).1 hget
    · cases hissued.symm.trans (hinv.sound.issued x e hget)
      exact (hnone x).2 hget
  have hrun : Inv s' ∧ Revoked s' x := by
    refine hs'.invariant (P := fun s' => Inv s' ∧ Revoked s' x) ⟨hinv, hgone⟩ fun a u u' hu hok hs => ?_
    have hadvance := Advances.step hu.1 hok hs
    exact ⟨hadvance.inv, hu.2.advance hadvance⟩
  exact ⟨hrun.2.access, hrun.2.refresh⟩

end

/-- A server that draws the token. -/
def drawing (token : String) : Env where
  token := token
  now := 0
  accessTokenTtl := 300000
  exists_ := true
  conflicts := false
  isLocked := .ok false

def phone : Device := toLex ("@alice:a", "phone")

/-- The `k`th call is answered. -/
def answered (k : Nat) : List Action :=
  [.drop k, .unlist k, .release k]

/-- A login with a refresh token. -/
def loginPhone : List Action :=
  .call (.login phone "A1" (some 300000) false) :: List.replicate 5 (.proceed 0 (drawing "")) ++
    .proceed 0 (drawing "R1") :: answered 0

/-- A refresh, the `k`th call, with so many steps before it stores the access token. -/
def refreshPhone (k steps : Nat) (used access refresh : String) : List Action :=
  .call (.refresh used) :: List.replicate steps (.proceed k (drawing "")) ++
    .proceed k (drawing access) :: .proceed k (drawing refresh) :: answered k

/-- The token of the login goes with the second refresh. -/
theorem refresh_rotation_twice : ∃ s,
    runWhile step (fun a s => fresh a s = true ∧ apart a s = true) (loginPhone ++ refreshPhone 1 5 "R1" "A2" "R2" ++
      refreshPhone 2 6 "R2" "A3" "R3") .new = some s ∧ s.tables.refreshtokenUserdeviceid.get "R1" = none ∧
    s.tables.refreshtokenUserdeviceid.get "R2" = some phone := by
  refine exists_of_map (fun s => (s.exchanges, s.tables.userdeviceidRefreshtoken.get phone))
    (v := ([("R1", "R2"), ("R2", "R3")], some "R3")) (by decide) fun s hs heq => ?_
  obtain ⟨hexchanges, hcurrent⟩ := Prod.mk.inj heq
  obtain ⟨-, hkept, hspent⟩ := refresh_rotation (.of_runWhile _ .init hs)
  refine ⟨hspent "R1" "R2" "R3" ?_ ?_, hkept "R2" "R3" phone ?_ hcurrent⟩
  all_goals
    rw [hexchanges]
    decide

-- a repetition of an answered refresh revokes the token of the answer
example : ((runWhile step (fun _ _ => True) (loginPhone ++ refreshPhone 1 5 "R1" "A2" "R2" ++
    refreshPhone 2 6 "R1" "A3" "R3") .new).map fun s => s.tables.refreshtokenUserdeviceid.get "R2") =
      some none := by
  decide

/-- A removal up to the row of the device. -/
def logoutPhone (k : Nat) : List Action :=
  .call (.remove phone) :: List.replicate 8 (.proceed k (drawing ""))

def closes (c : Call) : Option Device :=
  match c.stage with
  | .closing d => some d
  | _ => none

theorem logout_is_final_refresh : ∃ s,
    runWhile step (fun a s => fresh a s = true ∧ apart a s = true) (loginPhone ++ logoutPhone 1) .new = some s ∧
    ∀ s', runWhile step (fun a s => fresh a s = true ∧ apart a s = true)
      [.proceed 1 (drawing ""), .call (.refresh "R1")] s = some s' →
      s'.tables.tokenUserdeviceid.get "R1" = none ∧ s'.tables.refreshtokenUserdeviceid.get "R1" = none := by
  refine exists_of_map (fun s => ((s.calls[1]?).bind closes, s.issued.get "R1")) (v := (some phone, some phone))
    (by decide) fun s hs heq s' hs' => ?_
  obtain ⟨hcloses, hissued⟩ := Prod.mk.inj heq
  obtain ⟨c, hk, hstage⟩ := Option.bind_eq_some_iff.mp hcloses
  unfold closes at hstage
  split at hstage
  · rename_i d hclosing
    cases hstage
    exact (logout_is_final (.of_runWhile _ .init hs) hk hclosing).2 s' (.of_runWhile _ .init hs') "R1" (by decide)
      hissued
  · cases hstage

end Congruent.DeviceTokens
