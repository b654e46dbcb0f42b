import Congruent.ToDeviceInbox

/-!
# Each to-device message once

As long as no message for a device is between its count and its row when a window of the
device ends, the client gets each message once, and a row goes only after the client has it.
-/

namespace Congruent.ToDeviceInbox

/-! ## Requests -/

/-- The request that a step leaves in place of one, or begins. -/
def Arises (s : World) : Action → Request → Prop
  | .sync device, r => r = ⟨device, (s.clients device).token, none, none, none⟩
  | .bound k, r => ∃ r₀, s.requests[k]? = some r₀ ∧ r₀.bound = none ∧ r = { r₀ with bound := some s.counter }
  | .collect k, r => ∃ r₀, s.requests[k]? = some r₀ ∧
      r = { r₀ with removing := some (acknowledged s.todeviceidEvents r₀.device r₀.since) }
  | .remove k, r => ∃ r₀ key keys, s.requests[k]? = some r₀ ∧ r₀.removing = some (key :: keys) ∧
      r = { r₀ with removing := some keys }
  | .scan k, r => ∃ r₀ b, s.requests[k]? = some r₀ ∧ r₀.bound = some b ∧
      r = { r₀ with events := some (getToDeviceEvents s.todeviceidEvents r₀.device r₀.since (some b)) }
  | _, _ => False

section
variable {a : Action} {s s' : World} {r : Request}

theorem requests_step (hs : step a s = some s') (hr : r ∈ s'.requests) : r ∈ s.requests ∨ Arises s a r := by
  have hset : ∀ {k : Nat} {r₀ r' : Request}, s.requests[k]? = some r₀ → r ∈ s.requests.set k r' →
      r ∈ s.requests ∨ r = r' := by
    intro k r₀ r' hk hmem
    rcases mem_set_of_some hk hmem with heq | ⟨j, -, hj⟩
    · exact .inr heq
    · exact .inl (List.mem_of_getElem? hj)
  cases a with
  | sync device =>
    cases hs
    exact (List.mem_append.mp hr).imp id List.mem_singleton.mp
  | bound k =>
    simp only [step] at hs
    split at hs
    · rename_i hk
      cases hs
      exact (hset hk hr).imp id fun heq => ⟨_, hk, rfl, heq⟩
    · cases hs
  | collect k =>
    simp only [step] at hs
    split at hs
    · rename_i hk
      cases hs
      exact (hset hk hr).imp id fun heq => ⟨_, hk, heq⟩
    · cases hs
  | remove k =>
    simp only [step] at hs
    split at hs
    · rename_i hk
      cases hs
      exact (hset hk hr).imp id fun heq => ⟨_, _, _, hk, rfl, heq⟩
    · cases hs
  | scan k =>
    simp only [step] at hs
    split at hs
    · rename_i hk
      cases hs
      exact (hset hk hr).imp id fun heq => ⟨_, _, hk, rfl, heq⟩
    · cases hs
  | receive k =>
    simp only [step] at hs
    split at hs
    · split at hs
      · cases hs
        exact .inl (List.mem_of_mem_eraseIdx hr)
      · cases hs
    · cases hs
  | lose k =>
    obtain ⟨r₀, -, rfl⟩ := Option.map_eq_some_iff.mp hs
    exact .inl (List.mem_of_mem_eraseIdx hr)
  | restart =>
    cases hs
    exact absurd hr List.not_mem_nil
  | add device event =>
    cases hs
    exact .inl hr
  | drop i | other diff =>
    obtain ⟨x, -, rfl⟩ := Option.map_eq_some_iff.mp hs
    exact .inl hr
  | draw i =>
    simp only [step] at hs
    split at hs
    · obtain ⟨c, -, rfl⟩ := Option.map_eq_some_iff.mp hs
      exact .inl hr
    · cases hs
  | put i =>
    simp only [step] at hs
    split at hs
    · cases hs
      exact .inl hr
    · cases hs

theorem clients_step (hs : step a s = some s') : s'.clients = s.clients ∧ s.counter ≤ s'.counter ∨
    ∃ r b l, r ∈ s.requests ∧ r.bound = some b ∧ r.events = some l ∧ r.since = (s.clients r.device).token ∧
      s'.clients = Function.update s.clients r.device ⟨some b, (s.clients r.device).received ++ l⟩ ∧
      s'.counter = s.counter ∧ s'.sent = s.sent ∧ s'.todeviceidEvents = s.todeviceidEvents ∧ s'.adds = s.adds := by
  cases a with
  | receive k =>
    simp only [step] at hs
    split at hs
    · rename_i hk
      split at hs
      · rename_i htoken
        cases hs
        exact .inr ⟨_, _, _, List.mem_of_getElem? hk, rfl, rfl, htoken, rfl, rfl, rfl, rfl, rfl⟩
      · cases hs
    · cases hs
  | sync device | restart | add device event =>
    cases hs
    exact .inl ⟨rfl, Nat.le_refl _⟩
  | drop i | lose k =>
    obtain ⟨x, -, rfl⟩ := Option.map_eq_some_iff.mp hs
    exact .inl ⟨rfl, Nat.le_refl _⟩
  | other diff =>
    obtain ⟨c, hc, rfl⟩ := Option.map_eq_some_iff.mp hs
    obtain ⟨rfl, -⟩ := DeviceKeyUpdates.nextCountBatch_eq_some hc
    exact .inl ⟨rfl, Nat.le_add_right _ _⟩
  | draw i =>
    simp only [step] at hs
    split at hs
    · obtain ⟨c, hc, rfl⟩ := Option.map_eq_some_iff.mp hs
      obtain ⟨rfl, -⟩ := DeviceKeyUpdates.nextCountBatch_eq_some hc
      exact .inl ⟨rfl, Nat.le_succ _⟩
    · cases hs
  | put i | bound k | collect k | remove k | scan k =>
    simp only [step] at hs
    repeat' split at hs
    all_goals first | cases hs; exact .inl ⟨rfl, Nat.le_refl _⟩ | cases hs

theorem row_step (hs : step a s = some s') {key : Key} {e : Event} (hrow : (key, e) ∈ s.todeviceidEvents) :
    (key, e) ∈ s'.todeviceidEvents ∨ (∃ r ∈ s.requests, ∃ keys ∈ r.removing, key ∈ keys) ∨
      ∃ (i : Nat) (event : Event), s.adds[i]? = some ⟨(ofLex key).1, event, .drawn (ofLex key).2⟩ := by
  cases a with
  | remove k =>
    simp only [step] at hs
    split at hs
    · rename_i device since bound key' keys events hk
      cases hs
      by_cases heq : key = key'
      · exact .inr (.inl ⟨_, List.mem_of_getElem? hk, _, rfl, heq ▸ List.mem_cons_self⟩)
      · exact .inl (SortedMap.mem_remove.mpr ⟨hrow, heq⟩)
    · cases hs
  | put i =>
    simp only [step] at hs
    split at hs
    · rename_i device event count hi
      cases hs
      by_cases heq : key = toLex (device, count)
      · subst heq
        exact .inr (.inr ⟨i, event, hi⟩)
      · exact .inl (SortedMap.mem_insert.mpr (.inr ⟨hrow, heq⟩))
    · cases hs
  | sync device | restart | add device event =>
    cases hs
    exact .inl hrow
  | drop i | lose k | other diff =>
    obtain ⟨x, -, rfl⟩ := Option.map_eq_some_iff.mp hs
    exact .inl hrow
  | draw i =>
    simp only [step] at hs
    split at hs
    · obtain ⟨c, -, rfl⟩ := Option.map_eq_some_iff.mp hs
      exact .inl hrow
    · cases hs
  | bound k | collect k | scan k | receive k =>
    simp only [step] at hs
    repeat' split at hs
    all_goals first | cases hs; exact .inl hrow | cases hs

theorem sent_step (hs : step a s = some s') {d : Device} {n : Nat} {e : Event} (he : (d, n, e) ∈ s'.sent) :
    (d, n, e) ∈ s.sent ∨ (toLex (d, n), e) ∈ s'.todeviceidEvents := by
  cases a with
  | put i =>
    simp only [step] at hs
    split at hs
    · cases hs
      refine (List.mem_append.mp he).imp id fun he => ?_
      cases List.mem_singleton.mp he
      exact SortedMap.mem_insert.mpr (.inl rfl)
    · cases hs
  | sync device | restart | add device event =>
    cases hs
    exact .inl he
  | drop i | lose k | other diff =>
    obtain ⟨x, -, rfl⟩ := Option.map_eq_some_iff.mp hs
    exact .inl he
  | draw i =>
    simp only [step] at hs
    split at hs
    · obtain ⟨c, -, rfl⟩ := Option.map_eq_some_iff.mp hs
      exact .inl he
    · cases hs
  | bound k | collect k | remove k | scan k | receive k =>
    simp only [step] at hs
    repeat' split at hs
    all_goals first | cases hs; exact .inl he | cases hs

end

/-! ## Acknowledged positions -/

/-- A request acknowledges at most what its client has, and removes only that. -/
structure Lagging (s : World) (r : Request) : Prop where
  since : ∀ x ∈ r.since, ∃ y ∈ (s.clients r.device).token, x ≤ y
  bound : ∀ b ∈ r.bound, b ≤ s.counter ∧ r.since.getD 0 ≤ b
  removing : ∀ keys ∈ r.removing, ∀ key ∈ keys, (ofLex key).1 = r.device ∧ ∃ x ∈ r.since, (ofLex key).2 ≤ x

structure Tokens (s : World) : Prop where
  token_le : ∀ d, ∀ y ∈ (s.clients d).token, y ≤ s.counter
  lagging : ∀ r ∈ s.requests, Lagging s r

section
variable {a : Action} {s s' : World} {r : Request}

theorem Lagging.keep (h : Lagging s r) (hclients : s'.clients = s.clients) (hc : s.counter ≤ s'.counter) :
    Lagging s' r where
  since := hclients ▸ h.since
  bound b hb := ⟨(h.bound b hb).1.trans hc, (h.bound b hb).2⟩
  removing := h.removing

theorem Tokens.since_le (h : Tokens s) (hr : r ∈ s.requests) : r.since.getD 0 ≤ s.counter := by
  cases hx : r.since with
  | none => exact Nat.zero_le _
  | some x =>
    obtain ⟨y, hy, hle⟩ := (h.lagging r hr).since x hx
    exact hle.trans (h.token_le r.device y hy)

theorem Tokens.arises (h : Tokens s) (hr : Arises s a r) : Lagging s r := by
  cases a with
  | sync device =>
    cases hr
    refine ⟨fun x hx => ⟨x, hx, Nat.le_refl x⟩, fun b hb => ?_, fun keys hk => ?_⟩
    · cases hb
    · cases hk
  | bound k =>
    obtain ⟨r₀, hk, -, rfl⟩ := hr
    have hold := h.lagging r₀ (List.mem_of_getElem? hk)
    have hle := h.since_le (List.mem_of_getElem? hk)
    refine ⟨hold.since, fun b hb => ?_, hold.removing⟩
    cases hb
    exact ⟨Nat.le_refl _, hle⟩
  | collect k =>
    obtain ⟨r₀, hk, rfl⟩ := hr
    have hold := h.lagging r₀ (List.mem_of_getElem? hk)
    refine ⟨hold.since, hold.bound, fun keys hkeys key hkey => ?_⟩
    cases hkeys
    obtain ⟨upTo, hsince, hdevice, hle⟩ := mem_acknowledged hkey
    exact ⟨hdevice, upTo, hsince, hle⟩
  | remove k =>
    obtain ⟨r₀, key, keys, hk, hkeys, rfl⟩ := hr
    have hold := h.lagging r₀ (List.mem_of_getElem? hk)
    refine ⟨hold.since, hold.bound, fun keys' hkeys' key' hkey' => ?_⟩
    cases hkeys'
    exact hold.removing _ hkeys key' (List.mem_cons_of_mem _ hkey')
  | scan k =>
    obtain ⟨r₀, b, hk, -, rfl⟩ := hr
    have hold := h.lagging r₀ (List.mem_of_getElem? hk)
    exact ⟨hold.since, hold.bound, hold.removing⟩
  | _ => cases hr

theorem Tokens.step (h : Tokens s) (hs : step a s = some s') : Tokens s' := by
  have hreq : ∀ r ∈ s'.requests, Lagging s r := fun r hr => (requests_step hs hr).elim (h.lagging r) h.arises
  rcases clients_step hs with ⟨hclients, hc⟩ | ⟨r₀, b, l, hr₀, hb, -, hsince, hclients, hc, -, -, -⟩
  · refine ⟨fun d y hy => ?_, fun r hr => (hreq r hr).keep hclients hc⟩
    rw [hclients] at hy
    exact (h.token_le d y hy).trans hc
  · obtain ⟨hbc, hsb⟩ := (h.lagging r₀ hr₀).bound b hb
    refine ⟨fun d y hy => ?_, fun r hr => ⟨fun x hx => ?_, ?_, (hreq r hr).removing⟩⟩
    · rw [hclients] at hy
      by_cases hd : d = r₀.device
      · subst hd
        rw [Function.update_self] at hy
        cases hy
        exact hbc.trans hc.ge
      · rw [Function.update_of_ne hd] at hy
        exact (h.token_le d y hy).trans hc.ge
    · -- the token only grows
      obtain ⟨y, hy, hle⟩ := (hreq r hr).since x hx
      rw [hclients]
      by_cases hd : r.device = r₀.device
      · rw [hd, Function.update_self]
        rw [hd, ← hsince] at hy
        rw [hy] at hsb
        exact ⟨b, rfl, hle.trans hsb⟩
      · rw [Function.update_of_ne hd]
        exact ⟨y, hy, hle⟩
    · rw [hc]
      exact (hreq r hr).bound

end

/-! ## What a client has -/

/-- The window of a request and what it found, as long as its client waits for it. -/
structure Windowed (s : World) (me : Device) (r : Request) : Prop where
  settled : ∀ b ∈ r.bound, (s.board me).Settled b
  events : ∀ l ∈ r.events, ∃ b, r.bound = some b ∧ l.Pairwise (fun x y => x.1 < y.1) ∧
    (r.since = (s.clients me).token → ∀ n e, (n, e) ∈ l ↔ (me, n, e) ∈ s.sent ∧ r.since.getD 0 < n ∧ n ≤ b)

/-- The client has each message up to its token once, and the others have their rows. -/
structure Served (s : World) (me : Device) : Prop where
  settled : (s.board me).Settled ((s.clients me).token.getD 0)
  sorted : (s.clients me).received.Pairwise fun x y => x.1 < y.1
  received : ∀ n e, (n, e) ∈ (s.clients me).received ↔ (me, n, e) ∈ s.sent ∧ n ≤ (s.clients me).token.getD 0
  kept : ∀ n e, (me, n, e) ∈ s.sent → (s.clients me).token.getD 0 < n → (toLex (me, n), e) ∈ s.todeviceidEvents

structure Inv (s : World) (me : Device) : Prop where
  rows : Rows s
  tokens : Tokens s
  served : Served s me
  windowed : ∀ r ∈ s.requests, r.device = me → Windowed s me r

/-- No message for the device is between its count and its row when a window of it ends. -/
def prompt (me : Device) : Action → World → Bool
  | .bound k, s => s.requests[k]?.all fun r => r.device ≠ me || s.adds.all fun x => x.device ≠ me ||
      match x.stage with
      | .drawn _ => false
      | _ => true
  | _, _ => true

section
variable {a : Action} {s s' : World} {me : Device} {r : Request}

theorem sent_iff (hs : step a s = some s') {b n : Nat} (hset : (s.board me).Settled b) (hn : n ≤ b) (e : Event) :
    (me, n, e) ∈ s'.sent ↔ (me, n, e) ∈ s.sent := by
  have hshown := hset.shown_step (board_step hs me) hn
  exact ⟨fun h => hshown.le h, fun h => hshown.ge h⟩

theorem Windowed.keep (h : Windowed s me r) (hs : step a s = some s')
    (htoken : r.since = (s'.clients me).token → r.since = (s.clients me).token) : Windowed s' me r where
  settled b hb := (h.settled b hb).step (board_step hs me)
  events l hl := by
    obtain ⟨b, hb, hsorted, hiff⟩ := h.events l hl
    refine ⟨b, hb, hsorted, fun hsince n e => ?_⟩
    rw [hiff (htoken hsince) n e]
    constructor
    · rintro ⟨hsent, hlow, hup⟩
      exact ⟨(sent_iff hs (h.settled b hb) hup e).mpr hsent, hlow, hup⟩
    · rintro ⟨hsent, hlow, hup⟩
      exact ⟨(sent_iff hs (h.settled b hb) hup e).mp hsent, hlow, hup⟩

theorem Inv.served_keep (h : Inv s me) (hs : step a s = some s') (hclient : s'.clients me = s.clients me) :
    Served s' me where
  settled := hclient ▸ h.served.settled.step (board_step hs me)
  sorted := hclient ▸ h.served.sorted
  received n e := by
    rw [hclient, h.served.received]
    refine and_congr_left fun hn => ?_
    exact (sent_iff hs h.served.settled hn e).symm
  kept n e hsent hlt := by
    rw [hclient] at hlt
    rcases sent_step hs hsent with hsent | hrow
    · rcases row_step hs (h.served.kept n e hsent hlt) with hrow | ⟨r, hr, keys, hkeys, hkey⟩ | ⟨i, event, hi⟩
      · exact hrow
      · -- what is removed is acknowledged
        obtain ⟨hdevice, x, hx, hle⟩ := (h.tokens.lagging r hr).removing keys hkeys _ hkey
        obtain ⟨y, hy, hxy⟩ := (h.tokens.lagging r hr).since x hx
        rw [← hdevice] at hy
        have htoken : (s.clients me).token = some y := hy
        rw [htoken] at hlt
        exact absurd (hle.trans hxy) (Nat.not_le.mpr hlt)
      · obtain ⟨-, -, hfree⟩ := h.rows.drawn _ (List.mem_of_getElem? hi) _ rfl
        exact absurd hsent (hfree me e)
    · exact hrow

theorem Inv.scan (h : Inv s me) (hmax : s.counter < DeviceKeyUpdates.u64Max) {since : Option Nat}
    (hsince : since = (s.clients me).token) {b n : Nat} {e : Event} :
    (n, e) ∈ getToDeviceEvents s.todeviceidEvents me since (some b) ↔
      (me, n, e) ∈ s.sent ∧ since.getD 0 < n ∧ n ≤ b := by
  rw [mem_getToDeviceEvents, Option.all_some, decide_eq_true_eq]
  constructor
  · rintro ⟨hrow, hfirst, hup⟩
    have hsent := h.rows.rows me n e hrow
    obtain ⟨hpos, hle⟩ := h.rows.sent_le me n e hsent
    refine ⟨hsent, ?_, hup⟩
    cases since with
    | none => exact hpos
    | some x =>
      rw [Option.elim_some] at hfirst
      rw [Option.getD_some]
      omega
  · rintro ⟨hsent, hlow, hup⟩
    refine ⟨h.served.kept n e hsent (hsince ▸ hlow), ?_, hup⟩
    cases since with
    | none => exact Nat.zero_le _
    | some x => exact (Nat.min_le_left _ _).trans hlow

theorem Inv.arises (h : Inv s me) (hok : prompt me a s = true) (hmax : s.counter < DeviceKeyUpdates.u64Max)
    (hr : Arises s a r) (hme : r.device = me) : Windowed s me r := by
  cases a with
  | sync device =>
    cases hr
    refine ⟨fun b hb => ?_, fun l hl => ?_⟩
    · cases hb
    · cases hl
  | bound k =>
    obtain ⟨r₀, hk, hnone, rfl⟩ := hr
    have hold := h.windowed r₀ (List.mem_of_getElem? hk) hme
    have hfree : (s.board me).held = ∅ := by
      refine Set.eq_empty_of_forall_notMem fun p ⟨x, hx, hxme, hp⟩ => ?_
      simp only [prompt, hk, Option.all_some, Bool.or_eq_true, decide_eq_true_eq, List.all_eq_true] at hok
      rcases hok with hne | hall
      · exact hne hme
      · rcases hall x hx with hne | hstage
        · exact hne hxme
        · rw [hp] at hstage
          cases hstage
    refine ⟨fun b hb => ?_, fun l hl => ?_⟩
    · cases hb
      exact Board.settled_counter hfree
    · obtain ⟨b, hb, -⟩ := hold.events l hl
      rw [hnone] at hb
      cases hb
  | collect k =>
    obtain ⟨r₀, hk, rfl⟩ := hr
    have hold := h.windowed r₀ (List.mem_of_getElem? hk) hme
    exact ⟨hold.settled, hold.events⟩
  | remove k =>
    obtain ⟨r₀, key, keys, hk, hkeys, rfl⟩ := hr
    have hold := h.windowed r₀ (List.mem_of_getElem? hk) hme
    exact ⟨hold.settled, hold.events⟩
  | scan k =>
    obtain ⟨r₀, b, hk, hb, rfl⟩ := hr
    have hold := h.windowed r₀ (List.mem_of_getElem? hk) hme
    refine ⟨hold.settled, fun l hl => ⟨b, hb, ?_, fun hsince n e => ?_⟩⟩
    · cases hl
      exact getToDeviceEvents_sorted _ _ _ _
    · cases hl
      rw [← h.scan hmax hsince]
      rw [hme]
  | _ => cases hr

theorem Inv.receive (h : Inv s me) {b : Nat} {l : List (Nat × Event)} (hr : r ∈ s.requests) (hme : r.device = me)
    (hb : r.bound = some b) (hl : r.events = some l) (hsince : r.since = (s.clients me).token)
    (hclient : s'.clients me = ⟨some b, (s.clients me).received ++ l⟩) (hboard : s'.board me = s.board me)
    (hsent : s'.sent = s.sent) (hrows : s'.todeviceidEvents = s.todeviceidEvents) : Served s' me := by
  have hw := h.windowed r hr hme
  obtain ⟨b', hb', hsorted, hiff⟩ := hw.events l hl
  obtain rfl : b = b' := Option.some.inj (hb.symm.trans hb')
  have hwin := hiff hsince
  have hle := ((h.tokens.lagging r hr).bound b hb).2
  rw [hsince] at hwin hle
  refine ⟨?_, ?_, fun n e => ?_, fun n e he hlt => ?_⟩
  · rw [hboard, hclient]
    exact hw.settled b hb
  · rw [hclient, List.pairwise_append]
    refine ⟨h.served.sorted, hsorted, fun x hx y hy => ?_⟩
    exact ((h.served.received x.1 x.2).mp hx).2.trans_lt ((hwin y.1 y.2).mp hy).2.1
  · rw [hclient, hsent, List.mem_append, h.served.received, hwin, Option.getD_some]
    constructor
    · rintro (⟨he, hn⟩ | ⟨he, -, hn⟩)
      · exact ⟨he, hn.trans hle⟩
      · exact ⟨he, hn⟩
    · rintro ⟨he, hn⟩
      by_cases hlow : n ≤ (s.clients me).token.getD 0
      · exact .inl ⟨he, hlow⟩
      · exact .inr ⟨he, Nat.lt_of_not_le hlow, hn⟩
  · rw [hclient, Option.getD_some] at hlt
    rw [hsent] at he
    rw [hrows]
    exact h.served.kept n e he (hle.trans_lt hlt)

theorem Inv.step (h : Inv s me) (hs : step a s = some s') (hok : prompt me a s = true)
    (hmax : s'.counter < DeviceKeyUpdates.u64Max) : Inv s' me := by
  have hcounter : s.counter ≤ s'.counter := (board_step hs me).counter_le
  have hwin : ∀ r ∈ s'.requests, r.device = me → Windowed s me r := by
    intro r hr hme
    rcases requests_step hs hr with hr | harises
    · exact h.windowed r hr hme
    · exact h.arises hok (hcounter.trans_lt hmax) harises hme
  rcases clients_step hs with ⟨hclients, -⟩ | ⟨r₀, b, l, hr₀, hb, hl, hsince, hclients, hc, hsent, hrows, hadds⟩
  · have hclient : s'.clients me = s.clients me := congrFun hclients me
    exact ⟨h.rows.step hs, h.tokens.step hs, h.served_keep hs hclient,
      fun r hr hme => (hwin r hr hme).keep hs fun hsince => hclient ▸ hsince⟩
  · by_cases hd : r₀.device = me
    · subst hd
      have hclient : s'.clients r₀.device = ⟨some b, (s.clients r₀.device).received ++ l⟩ := by
        rw [hclients, Function.update_self]
      refine ⟨h.rows.step hs, h.tokens.step hs, ?_, fun r hr hme => ?_⟩
      · refine h.receive hr₀ rfl hb hl hsince hclient ?_ hsent hrows
        simp only [World.board, hc, hsent, hadds]
      · -- a request that has the new token already had it as its own
        refine (hwin r hr hme).keep hs fun htoken => ?_
        have hlag : Lagging s r := (requests_step hs hr).elim (h.tokens.lagging r) h.tokens.arises
        rw [hclient] at htoken
        obtain ⟨y, hy, hby⟩ := hlag.since b htoken
        rw [hme] at hy
        have hle := ((h.tokens.lagging r₀ hr₀).bound b hb).2
        rw [hsince, show (s.clients r₀.device).token = some y from hy, Option.getD_some] at hle
        rw [htoken, show (s.clients r₀.device).token = some y from hy, Nat.le_antisymm hby hle]
    · have hclient : s'.clients me = s.clients me := by rw [hclients, Function.update_of_ne (Ne.symm hd)]
      exact ⟨h.rows.step hs, h.tokens.step hs, h.served_keep hs hclient,
        fun r hr hme => (hwin r hr hme).keep hs fun hsince => hclient ▸ hsince⟩

theorem inv_new (me : Device) : Inv .new me where
  rows := rows_new
  tokens := by
    refine ⟨fun d y hy => ?_, fun r hr => absurd hr List.not_mem_nil⟩
    cases hy
  served := by
    refine ⟨⟨Nat.le_refl _, fun p ⟨x, hx, _⟩ => absurd hx List.not_mem_nil⟩, .nil, fun n e => ?_, fun n e he => ?_⟩
    · exact ⟨fun h => absurd h List.not_mem_nil, fun h => absurd h.1 List.not_mem_nil⟩
    · exact absurd he List.not_mem_nil
  windowed r hr := absurd hr List.not_mem_nil

/-- Whatever a client loses, repeats or asks twice at a time, it has the messages up to its
token once each and in order, and every other message still has its row. -/
theorem inbox_exact (h : Reaches step (fun a s => prompt me a s = true) .new s)
    (hmax : s.counter < DeviceKeyUpdates.u64Max) :
    (s.clients me).received.Pairwise (fun x y => x.1 < y.1) ∧
      (∀ n e, (n, e) ∈ (s.clients me).received ↔ (me, n, e) ∈ s.sent ∧ n ≤ (s.clients me).token.getD 0) ∧
      ∀ n e, (me, n, e) ∈ s.sent → (n, e) ∈ (s.clients me).received ∨ (toLex (me, n), e) ∈ s.todeviceidEvents := by
  have hinv : s.counter < DeviceKeyUpdates.u64Max → Inv s me := by
    refine h.invariant (P := fun s => s.counter < DeviceKeyUpdates.u64Max → Inv s me) (fun _ => inv_new me) ?_
    exact fun a s s' hinv hok hs hmax => (hinv ((board_step hs me).counter_le.trans_lt hmax)).step hs hok hmax
  obtain ⟨-, hsorted, hreceived, hkept⟩ := (hinv hmax).served
  refine ⟨hsorted, hreceived, fun n e he => ?_⟩
  by_cases hn : n ≤ (s.clients me).token.getD 0
  · exact .inl ((hreceived n e).mpr ⟨he, hn⟩)
  · exact .inr (hkept n e he (Nat.lt_of_not_le hn))

end

/-- A device with two messages, a response lost and asked for again. -/
theorem inbox_exact_again : ∃ s,
    runWhile step (fun a s => prompt (toLex ("@u:a", "D")) a s = true)
      [.add (toLex ("@u:a", "D")) ⟨"m.room_key", "@v:a", "1"⟩, .draw 0, .put 0,
        .sync (toLex ("@u:a", "D")), .bound 0,
        .collect 0, .scan 0, .receive 0, .add (toLex ("@u:a", "D")) ⟨"m.room_key", "@v:a", "2"⟩, .draw 1, .put 1,
        .sync (toLex ("@u:a", "D")), .sync (toLex ("@u:a", "D")), .bound 0, .collect 0,
          .remove 0, .scan 0, .bound 1,
        .collect 1, .scan 1, .lose 1, .receive 0] .new = some s ∧
      (2, ⟨"m.room_key", "@v:a", "2"⟩) ∈ (s.clients (toLex ("@u:a", "D"))).received := by
  refine exists_of_map
    (fun s => decide (s.counter = 2) && decide ((s.clients (toLex ("@u:a", "D"))).token = some 2) &&
      decide ((toLex ("@u:a", "D"), 2, ⟨"m.room_key", "@v:a", "2"⟩) ∈ s.sent))
    (v := true) (by decide) fun s hs heq => ?_
  simp only [Bool.and_eq_true, decide_eq_true_eq] at heq
  obtain ⟨⟨hcounter, htoken⟩, hsent⟩ := heq
  refine ((inbox_exact (.of_runWhile _ .init hs) (hcounter ▸ by decide)).2.1 2 _).mpr ⟨hsent, ?_⟩
  rw [htoken]
  exact Nat.le_refl 2

-- a message that is put after the window ended is acknowledged unseen, and its row goes
example : (runWhile step (fun _ _ => True)
    [.add (toLex ("@u:a", "D")) ⟨"m.room_key", "@v:a", "1"⟩, .draw 0, .sync (toLex ("@u:a", "D")), .bound 0,
      .collect 0, .scan 0, .put 0, .receive 0, .sync (toLex ("@u:a", "D")), .bound 0,
        .collect 0, .remove 0, .scan 0,
      .receive 0] .new).map
    (fun s => ((s.clients (toLex ("@u:a", "D"))).received.length, s.todeviceidEvents.entries.length,
      s.sent.length)) =
      some (0, 0, 1) := by
  decide

end Congruent.ToDeviceInbox
