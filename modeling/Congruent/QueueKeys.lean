import Congruent.KeyTuples

/-!
# Keys of the sending queues (`sending/data.rs`, `sending/dest.rs`)

A queued event is stored under its destination's prefix, with the event's id or a count
behind it. What reads a key back panics where the id does not have its length.
-/

namespace Congruent.QueueKeys

open Store (Bytes toBeBytes utf8 ofUtf8 ofUtf8_utf8 utf8_of_ofUtf8)

/-- Which texts are user ids and server names; a parsed id is the text it was parsed from. -/
structure Identifiers where
  isUserId : String → Bool
  isServerName : String → Bool

variable (ids : Identifiers)

def OwnedUserId : Type := {s : String // ids.isUserId s = true}

def OwnedServerName : Type := {s : String // ids.isServerName s = true}

inductive Destination where
  | appservice (id : String)
  | push (user : OwnedUserId ids) (pushkey : String)
  | federation (server : OwnedServerName ids)

/-- `RawId::LEN`. -/
def rawIdLen : Nat := 16

def RawId : Type := {bytes : Bytes // bytes.length = rawIdLen}

inductive SendingEvent where
  | pdu (id : RawId)
  | edu (body : Bytes)
  | flush

inductive Fail where
  | badDatabase (message : String)
  | panic

def sep : UInt8 := KeyTuples.SEP

def plus : UInt8 := 0x2B

def dollar : UInt8 := 0x24

variable {ids}

def Destination.getPrefix : Destination ids → Bytes
  | .federation server => utf8 server.1 ++ [sep]
  | .appservice id => plus :: (utf8 id ++ [sep])
  | .push user pushkey => dollar :: (utf8 user.1 ++ [sep] ++ utf8 pushkey ++ [sep])

/-- The key of `queue_requests_impl`, given the next count. -/
def queueKey (count : Nat) (event : SendingEvent) (dest : Destination ids) : Bytes :=
  dest.getPrefix ++
    match event with
    | .pdu id => id.1
    | _ => toBeBytes 8 count

def queueValue : SendingEvent → Bytes
  | .edu body => body
  | _ => []

/-- The part before the first separator, and what is behind it (`splitn`). -/
def splitSep (bytes : Bytes) : Bytes × Option Bytes :=
  (bytes.takeWhile (· ≠ sep),
    match bytes.dropWhile (· ≠ sep) with
    | [] => none
    | _ :: rest => some rest)

/-- `RawId::from`, which asserts the length. -/
def RawId.from (bytes : Bytes) : Except Fail RawId :=
  if h : bytes.length = rawIdLen then .ok ⟨bytes, h⟩ else .error .panic

def eventFrom (event value : Bytes) : Except Fail SendingEvent :=
  if value = [] then (RawId.from event).map .pdu else .ok (.edu value)

def orElse {A : Type} (message : String) : Option A → Except Fail A
  | some a => .ok a
  | none => .error (.badDatabase message)

def parseUserId (ids : Identifiers) (s : String) : Option (OwnedUserId ids) :=
  if h : ids.isUserId s = true then some ⟨s, h⟩ else none

def parseServerName (ids : Identifiers) (s : String) : Option (OwnedServerName ids) :=
  if h : ids.isServerName s = true then some ⟨s, h⟩ else none

/-- The branch for a key that begins with `+`, without that. -/
def parseAppservice (ids : Identifiers) (key value : Bytes) : Except Fail (Destination ids × SendingEvent) := do
  let (server, rest) := splitSep key
  let event ← orElse "Invalid bytes in servercurrentpdus." rest
  let server ← orElse "Invalid server bytes in server_currenttransaction" (ofUtf8 server)
  .ok (.appservice server, ← eventFrom event value)

/-- The branch for a key that begins with `$`, without that. -/
def parsePush (ids : Identifiers) (key value : Bytes) : Except Fail (Destination ids × SendingEvent) := do
  let (user, rest) := splitSep key
  let userString ← orElse "Invalid user string in servercurrentevent" (ofUtf8 user)
  let userId ← orElse "Invalid user id in servercurrentevent" (parseUserId ids userString)
  let rest ← orElse "Invalid bytes in servercurrentpdus." rest
  let (pushkey, rest) := splitSep rest
  let pushkeyString ← orElse "Invalid pushkey in servercurrentevent" (ofUtf8 pushkey)
  let event ← orElse "Invalid bytes in servercurrentpdus." rest
  .ok (.push userId pushkeyString, ← eventFrom event value)

def parseFederation (ids : Identifiers) (key value : Bytes) : Except Fail (Destination ids × SendingEvent) := do
  let (server, rest) := splitSep key
  let event ← orElse "Invalid bytes in servercurrentpdus." rest
  let server ← orElse "Invalid server bytes in server_currenttransaction" (ofUtf8 server)
  let server ← orElse "Invalid server string in server_currenttransaction" (parseServerName ids server)
  .ok (.federation server, ← eventFrom event value)

def parseServercurrentevent (ids : Identifiers) (key value : Bytes) : Except Fail
    (Destination ids × SendingEvent) :=
  if key.head? = some plus then parseAppservice ids key.tail value
  else if key.head? = some dollar then parsePush ids key.tail value
  else parseFederation ids key value

/-! ## Splitting -/

theorem splitSep_append {a rest : Bytes} (h : sep ∉ a) : splitSep (a ++ sep :: rest) = (a, some rest) := by
  have hall : ∀ b ∈ a, decide (b ≠ sep) = true := by
    intro b hb
    rw [decide_eq_true_eq]
    rintro rfl
    exact h hb
  unfold splitSep
  rw [List.takeWhile_append_of_pos hall, List.dropWhile_append_of_pos hall]
  simp

theorem append_of_splitSep {bytes a rest : Bytes} (h : splitSep bytes = (a, some rest)) : bytes =
    a ++ sep :: rest := by
  unfold splitSep at h
  obtain ⟨rfl, hrest⟩ := Prod.mk.inj h
  have hsplit := @List.takeWhile_append_dropWhile _ (fun b => decide (b ≠ sep)) bytes
  cases hdrop : bytes.dropWhile fun b => decide (b ≠ sep) with
  | nil =>
    rw [hdrop] at hrest
    cases hrest
  | cons b tail =>
    rw [hdrop] at hrest hsplit
    have hb := @List.head_dropWhile_not _ (fun b => decide (b ≠ sep)) bytes
      (by rw [hdrop]; exact List.cons_ne_nil b tail)
    simp only [hdrop, List.head_cons, decide_eq_false_iff_not, not_not] at hb
    rw [hb] at hsplit
    rw [← Option.some.inj hrest]
    exact hsplit.symm

theorem parseUserId_val (user : OwnedUserId ids) : parseUserId ids user.1 = some user := dif_pos user.2

theorem parseServerName_val (server : OwnedServerName ids) : parseServerName ids server.1 = some server :=
  dif_pos server.2

theorem val_of_parseUserId {s : String} {user : OwnedUserId ids}
    (h : parseUserId ids s = some user) : user.1 = s := by
  unfold parseUserId at h
  split at h
  · cases h
    rfl
  · cases h

theorem val_of_parseServerName {s : String} {server : OwnedServerName ids}
    (h : parseServerName ids s = some server) :
    server.1 = s := by
  unfold parseServerName at h
  split at h
  · cases h
    rfl
  · cases h

theorem orElse_some_bind {A B : Type} (message : String) (a : A) (f : A → Except Fail B) :
    (orElse message (some a) >>= f) = f a := rfl

/-! ## Reading a key back -/

/-- No server name begins with the sign of another kind of destination. -/
def NoSigil (ids : Identifiers) : Prop :=
  ∀ s, ids.isServerName s = true → (utf8 s).head? ≠ some plus ∧ (utf8 s).head? ≠ some dollar

theorem parseAppservice_eq (id : String) (tail value : Bytes) :
    parseAppservice ids (utf8 id ++ sep :: tail) value = (eventFrom tail value).map (.appservice id, ·) := by
  unfold parseAppservice
  simp only [splitSep_append (KeyTuples.SEP_notMem_utf8 id), ofUtf8_utf8]
  rw [orElse_some_bind, orElse_some_bind]
  cases eventFrom tail value <;> rfl

theorem parsePush_eq (user : OwnedUserId ids) (pushkey : String) (tail value : Bytes) :
    parsePush ids (utf8 user.1 ++ sep :: (utf8 pushkey ++ sep :: tail)) value =
      (eventFrom tail value).map (.push user pushkey, ·) := by
  unfold parsePush
  simp only [splitSep_append (KeyTuples.SEP_notMem_utf8 user.1), ofUtf8_utf8]
  rw [orElse_some_bind, parseUserId_val, orElse_some_bind, orElse_some_bind]
  simp only [splitSep_append (KeyTuples.SEP_notMem_utf8 pushkey), ofUtf8_utf8]
  rw [orElse_some_bind, orElse_some_bind]
  cases eventFrom tail value <;> rfl

theorem parseFederation_eq (server : OwnedServerName ids) (tail value : Bytes) :
    parseFederation ids (utf8 server.1 ++ sep :: tail) value = (eventFrom tail value).map
      (.federation server, ·) := by
  unfold parseFederation
  simp only [splitSep_append (KeyTuples.SEP_notMem_utf8 server.1), ofUtf8_utf8]
  rw [orElse_some_bind, orElse_some_bind, parseServerName_val, orElse_some_bind]
  cases eventFrom tail value <;> rfl

theorem parse_getPrefix (hnames : NoSigil ids) (dest : Destination ids) (tail value : Bytes) :
    parseServercurrentevent ids (dest.getPrefix ++ tail) value = (eventFrom tail value).map (dest, ·) := by
  unfold parseServercurrentevent
  cases dest with
  | appservice id =>
    have hkey : (Destination.appservice id : Destination ids).getPrefix ++ tail = plus ::
        (utf8 id ++ sep :: tail) := by
      simp [Destination.getPrefix]
    rw [hkey, if_pos (List.head?_cons ..), List.tail_cons, parseAppservice_eq]
  | push user pushkey =>
    have hkey : (Destination.push user pushkey).getPrefix ++ tail =
        dollar :: (utf8 user.1 ++ sep :: (utf8 pushkey ++ sep :: tail)) := by
      simp [Destination.getPrefix]
    have hne : ¬ some dollar = some plus := by decide
    rw [hkey, List.head?_cons, if_neg hne, if_pos rfl, List.tail_cons, parsePush_eq]
  | federation server =>
    have hkey : (Destination.federation server).getPrefix ++ tail = utf8 server.1 ++ sep :: tail := by
      simp [Destination.getPrefix]
    obtain ⟨hplus, hdollar⟩ := hnames server.1 server.2
    have hhead : ∀ c : UInt8, c ≠ sep → (utf8 server.1).head? ≠ some c →
        (utf8 server.1 ++ sep :: tail).head? ≠ some c := by
      intro c hc hne
      cases hbytes : utf8 server.1 with
      | nil => exact fun h => hc (Option.some.inj h).symm
      | cons b bytes =>
        rw [hbytes] at hne
        exact hne
    rw [hkey, if_neg (hhead plus (by decide) hplus), if_neg (hhead dollar (by decide) hdollar), parseFederation_eq]

/-- A parse that reports a corrupted row unless a condition holds. -/
def Reports {A : Type} (p : Prop) (x : Except Fail A) : Prop := p ∨ ∃ message, x = .error (.badDatabase message)

theorem Reports.orElse {A B : Type} {p : Prop} {message : String} {a : Option A} {f : A → Except Fail B}
    (h : ∀ x, a = some x → Reports p (f x)) : Reports p (orElse message a >>= f) := by
  cases a with
  | some x => exact h x rfl
  | none => exact .inr ⟨message, rfl⟩

theorem parseAppservice_reports (key value : Bytes) :
    Reports (∃ id tail, key = utf8 id ++ sep :: tail) (parseAppservice ids key value) := by
  unfold parseAppservice
  cases hsplit : splitSep key with
  | mk server rest =>
    refine .orElse fun tail htail => .orElse fun id hid => .inl ⟨id, tail, ?_⟩
    rw [utf8_of_ofUtf8 hid]
    exact append_of_splitSep (htail ▸ hsplit)

theorem parsePush_reports (key value : Bytes) :
    Reports (∃ (user : OwnedUserId ids) (pushkey : String) (tail : Bytes),
      key = utf8 user.1 ++ sep :: (utf8 pushkey ++ sep :: tail)) (parsePush ids key value) := by
  unfold parsePush
  cases hsplit : splitSep key with
  | mk userBytes rest =>
    refine .orElse fun name hname => .orElse fun user huser => .orElse fun bytes hbytes => ?_
    cases hsplit' : splitSep bytes with
    | mk pushkeyBytes rest' =>
      refine .orElse fun pushkey hpushkey => .orElse fun tail htail => .inl ⟨user, pushkey, tail, ?_⟩
      have hrest : bytes = pushkeyBytes ++ sep :: tail := append_of_splitSep (htail ▸ hsplit')
      rw [val_of_parseUserId huser, utf8_of_ofUtf8 hname, utf8_of_ofUtf8 hpushkey, ← hrest]
      exact append_of_splitSep (hbytes ▸ hsplit)

theorem parseFederation_reports (key value : Bytes) :
    Reports (∃ (server : OwnedServerName ids) (tail : Bytes), key = utf8 server.1 ++ sep :: tail)
      (parseFederation ids key value) := by
  unfold parseFederation
  cases hsplit : splitSep key with
  | mk serverBytes rest =>
    refine .orElse fun tail htail => .orElse fun name hname => .orElse fun server hserver => .inl ⟨server, tail, ?_⟩
    rw [val_of_parseServerName hserver, utf8_of_ofUtf8 hname]
    exact append_of_splitSep (htail ▸ hsplit)

theorem parse_reports (key value : Bytes) :
    Reports (∃ (dest : Destination ids) (tail : Bytes), key = dest.getPrefix ++ tail)
      (parseServercurrentevent ids key value) := by
  unfold parseServercurrentevent
  by_cases hplus : key.head? = some plus
  · rw [if_pos hplus]
    refine (parseAppservice_reports key.tail value).imp_left ?_
    rintro ⟨id, tail, htail⟩
    refine ⟨.appservice id, tail, ?_⟩
    rw [← List.cons_head?_tail hplus, htail]
    simp [Destination.getPrefix]
  · rw [if_neg hplus]
    by_cases hdollar : key.head? = some dollar
    · rw [if_pos hdollar]
      refine (parsePush_reports key.tail value).imp_left ?_
      rintro ⟨user, pushkey, tail, htail⟩
      refine ⟨.push user pushkey, tail, ?_⟩
      rw [← List.cons_head?_tail hdollar, htail]
      simp [Destination.getPrefix]
    · rw [if_neg hdollar]
      refine (parseFederation_reports key value).imp_left ?_
      rintro ⟨server, tail, htail⟩
      exact ⟨.federation server, tail, by simp [Destination.getPrefix, htail]⟩

/-! ## The queue -/

def Queued : SendingEvent → Prop
  | .pdu _ => True
  | .edu body => body ≠ []
  | .flush => False

theorem parse_queueKey (hnames : NoSigil ids) (count : Nat) {event : SendingEvent} (hevent : Queued event)
    (dest : Destination ids) :
    parseServercurrentevent ids (queueKey count event dest) (queueValue event) = .ok (dest, event) := by
  unfold queueKey
  rw [parse_getPrefix hnames]
  cases event with
  | pdu id =>
    have hid : RawId.from id.1 = .ok id := dif_pos id.2
    have hpdu : eventFrom id.1 [] = .ok (.pdu id) := by
      rw [eventFrom, if_pos rfl, hid]
      rfl
    show (eventFrom id.1 []).map _ = _
    rw [hpdu]
    rfl
  | edu body =>
    have hedu : eventFrom (toBeBytes 8 count) body = .ok (.edu body) := if_neg hevent
    show (eventFrom (toBeBytes 8 count) body).map _ = _
    rw [hedu]
    rfl
  | flush => exact absurd hevent not_false

theorem prefixes_apart (hnames : NoSigil ids) {dest dest' : Destination ids} (hne : dest ≠ dest') (tail : Bytes) :
    ¬ dest.getPrefix <+: dest'.getPrefix ++ tail := by
  rintro ⟨tail', heq⟩
  -- Both are read from the same bytes.
  have hread := parse_getPrefix hnames dest tail' [0]
  have hread' := parse_getPrefix hnames dest' tail [0]
  rw [heq, hread'] at hread
  have hboth : (dest', SendingEvent.edu [0]) = (dest, .edu [0]) := Except.ok.inj hread
  exact hne (Prod.mk.inj hboth).1.symm

theorem panic_iff (hnames : NoSigil ids) (key value : Bytes) :
    parseServercurrentevent ids key value = .error .panic ↔
      value = [] ∧ ∃ (dest : Destination ids) (tail : Bytes), key = dest.getPrefix ++ tail ∧
        tail.length ≠ rawIdLen := by
  constructor
  · intro hpanic
    rcases @parse_reports ids key value with ⟨dest, tail, rfl⟩ | ⟨message, herror⟩
    · rw [parse_getPrefix hnames] at hpanic
      unfold eventFrom at hpanic
      split at hpanic
      · rename_i hvalue
        refine ⟨hvalue, dest, tail, rfl, fun hlen => ?_⟩
        have hid : RawId.from tail = .ok ⟨tail, hlen⟩ := dif_pos hlen
        rw [hid] at hpanic
        cases hpanic
      · cases hpanic
    · rw [herror] at hpanic
      cases hpanic
  · rintro ⟨rfl, dest, tail, rfl, hlen⟩
    have hid : RawId.from tail = .error .panic := dif_neg hlen
    rw [parse_getPrefix hnames, eventFrom, if_pos rfl, hid]
    rfl

/-- Keys decode to what was queued, and no key has the prefix of another destination. The
parse of other bytes panics just where the value is empty and what is behind a
destination's prefix has not the length of an event's id. -/
theorem queue_keys_iff (hnames : NoSigil ids) :
    (∀ (count : Nat) (event : SendingEvent) (dest : Destination ids), Queued event →
      parseServercurrentevent ids (queueKey count event dest) (queueValue event) = .ok (dest, event)) ∧
    (∀ (dest dest' : Destination ids) (tail : Bytes), dest ≠ dest' → ¬ dest.getPrefix <+: dest'.getPrefix ++ tail) ∧
    ∀ key value : Bytes, parseServercurrentevent ids key value ≠ .error .panic ↔
      (value = [] → ∀ (dest : Destination ids) (tail : Bytes), key = dest.getPrefix ++ tail →
        tail.length = rawIdLen) := by
  refine ⟨fun count event dest hevent => parse_queueKey hnames count hevent dest,
    fun dest dest' tail hne => prefixes_apart hnames hne tail, fun key value => ?_⟩
  rw [ne_eq, panic_iff hnames]
  constructor
  · intro h hvalue dest tail hkey
    by_contra hlen
    exact h ⟨hvalue, dest, tail, hkey, hlen⟩
  · rintro h ⟨hvalue, dest, tail, hkey, hlen⟩
    exact hlen (h hvalue dest tail hkey)

/-! ## A short row -/

/-- One user and one server. -/
def Identifiers.one : Identifiers := ⟨fun s => s = "@u:a.b", fun s => s = "a.b"⟩

def oneServer : OwnedServerName .one := ⟨"a.b", rfl⟩

theorem one_noSigil : NoSigil .one := by
  intro s hs
  obtain rfl : s = "a.b" := of_decide_eq_true hs
  exact ⟨by decide, by decide⟩

theorem typing_read_back :
    parseServercurrentevent .one (queueKey 7 (.edu (utf8 "\x7b\x7d")) (.federation oneServer)) (utf8 "\x7b\x7d") =
      .ok (.federation oneServer, .edu (utf8 "\x7b\x7d")) :=
  (queue_keys_iff one_noSigil).1 7 (.edu (utf8 "\x7b\x7d")) (.federation oneServer) (by unfold Queued; decide)

/-- A row with one byte behind the server's name, and no value. -/
theorem short_row_panics :
    parseServercurrentevent .one (utf8 "a.b" ++ [sep, 1]) [] = .error .panic := by
  refine (panic_iff one_noSigil _ _).mpr ⟨rfl, .federation oneServer, [1], ?_, by decide⟩
  simp [Destination.getPrefix, oneServer]

end Congruent.QueueKeys
