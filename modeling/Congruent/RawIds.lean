import Congruent.PduCounts
import Congruent.Store

/-!
# Raw ids and timeline keys (`pdu/raw_id.rs`, `pdu/count.rs`)

The keys of the timeline as bytes. Signed numbers are stored with the sign bit flipped, so
that the order of the bytes is the order of the rooms, or the depths, and then of the counts.
-/

namespace Congruent

open Words
open Store (Bytes toBeBytes ofBeBytes)

/-! ## The order of bytes -/

theorem compareOfLessAndEq_congr {α β : Type} [LT α] [DecidableLT α] [DecidableEq α] [LT β] [DecidableLT β]
    [DecidableEq β] {x y : α} {x' y' : β} (hlt : x < y ↔ x' < y') (heq : x = y ↔ x' = y') :
    compareOfLessAndEq x y = compareOfLessAndEq x' y' := by
  unfold compareOfLessAndEq
  simp only [hlt, heq]

theorem compare_uint8 (x y : UInt8) : compare x y = compare x.toNat y.toNat :=
  compareOfLessAndEq_congr UInt8.lt_iff_toNat_lt UInt8.toNat_inj.symm

theorem compare_uint64 (x y : UInt64) : compare x y = compare x.toNat y.toNat :=
  compareOfLessAndEq_congr UInt64.lt_iff_toNat_lt UInt64.toNat_inj.symm

theorem compare_int64 (x y : Int64) : compare x y = compare x.toInt y.toInt :=
  compareOfLessAndEq_congr Int64.lt_iff_toInt_lt Int64.toInt_inj.symm

theorem ofBeBytes_cons (b : UInt8) (bytes : Bytes) :
    ofBeBytes (b :: bytes) = b.toNat * 256 ^ bytes.length + ofBeBytes bytes := by
  induction bytes using List.reverseRecOn with
  | nil => simp [ofBeBytes]
  | append_singleton bytes c ih =>
    rw [← List.cons_append, Store.ofBeBytes_concat, Store.ofBeBytes_concat, ih, List.length_append,
      List.length_singleton, Nat.pow_succ, Nat.add_mul, Nat.mul_assoc, Nat.add_assoc]

theorem compare_digits {x y a b n : Nat} (ha : a < n) (hb : b < n) :
    compare (x * n + a) (y * n + b) = (compare x y).then (compare a b) := by
  rcases Nat.lt_trichotomy x y with hlt | rfl | hgt
  · have hmul : (x + 1) * n ≤ y * n := Nat.mul_le_mul_right _ hlt
    rw [Nat.add_mul, Nat.one_mul] at hmul
    rw [compare_lt_iff_lt.mpr hlt]
    exact compare_lt_iff_lt.mpr (by omega)
  · rw [compare_eq_iff_eq.mpr rfl]
    exact compareOfLessAndEq_congr (by omega) (by omega)
  · have hmul : (y + 1) * n ≤ x * n := Nat.mul_le_mul_right _ hgt
    rw [Nat.add_mul, Nat.one_mul] at hmul
    rw [compare_gt_iff_gt.mpr hgt]
    exact compare_gt_iff_gt.mpr (by omega)

theorem compare_ofBeBytes {a b : Bytes} (h : a.length = b.length) :
    compare a b = compare (ofBeBytes a) (ofBeBytes b) := by
  induction a generalizing b with
  | nil =>
    rw [List.length_nil, eq_comm, List.length_eq_zero_iff] at h
    subst h
    rfl
  | cons x a ih =>
    cases b with
    | nil => cases h
    | cons y b =>
      rw [List.length_cons, List.length_cons, Nat.succ_inj] at h
      have ha := Store.ofBeBytes_lt a
      rw [h] at ha
      rw [List.compare_cons_cons, ih h, compare_uint8, ofBeBytes_cons, ofBeBytes_cons, h,
        compare_digits ha (Store.ofBeBytes_lt b)]

theorem compare_toBeBytes {width n m : Nat} (hn : n < 256 ^ width) (hm : m < 256 ^ width) :
    compare (toBeBytes width n) (toBeBytes width m) = compare n m := by
  rw [compare_ofBeBytes (by rw [Store.length_toBeBytes, Store.length_toBeBytes]), Store.ofBeBytes_toBeBytes,
    Store.ofBeBytes_toBeBytes, Nat.mod_eq_of_lt hn, Nat.mod_eq_of_lt hm]

theorem compare_append {a b c d : Bytes} (h : a.length = b.length) :
    compare (a ++ c) (b ++ d) = (compare a b).then (compare c d) := by
  induction a generalizing b with
  | nil =>
    rw [List.length_nil, eq_comm, List.length_eq_zero_iff] at h
    subst h
    rfl
  | cons x a ih =>
    cases b with
    | nil => cases h
    | cons y b =>
      rw [List.length_cons, List.length_cons, Nat.succ_inj] at h
      rw [List.cons_append, List.cons_append, List.compare_cons_cons, List.compare_cons_cons, ih h,
        Ordering.then_assoc]

/-! ## The sign bit -/

/-- `u64::to_be_bytes`. -/
def beBytes (n : UInt64) : Bytes := toBeBytes 8 n.toNat

/-- `u64::from_be_bytes`. -/
def fromBeBytes (bytes : Bytes) : UInt64 := .ofNat (ofBeBytes bytes)

theorem fromBeBytes_beBytes (n : UInt64) : fromBeBytes (beBytes n) = n := by
  unfold fromBeBytes beBytes
  rw [Store.ofBeBytes_toBeBytes, show (256 : Nat) ^ 8 = 2 ^ 64 by decide, Nat.mod_eq_of_lt n.toNat_lt,
    UInt64.ofNat_toNat]

theorem compare_beBytes (n m : UInt64) : compare (beBytes n) (beBytes m) = compare n m := by
  rw [compare_uint64]
  exact compare_toBeBytes n.toNat_lt m.toNat_lt

/-- `offset_binary_encoding`: flips the sign bit. -/
def offsetBinaryEncoding (countBytes : Bytes) : Bytes := countBytes.modifyHead (· ^^^ 0x80)

def signBit : UInt64 := 0x8000000000000000

theorem nat_xor_two_pow {n k : Nat} (h : n < 2 * 2 ^ k) : n ^^^ 2 ^ k = (n + 2 ^ k) % (2 * 2 ^ k) := by
  have hpos := Nat.two_pow_pos k
  have hdiv := Nat.div_add_mod (n ^^^ 2 ^ k) (2 ^ k)
  rw [Nat.xor_div_two_pow, Nat.xor_mod_two_pow, Nat.div_self hpos, Nat.mod_self, Nat.xor_zero] at hdiv
  rw [← hdiv]
  rcases Nat.lt_or_ge n (2 ^ k) with hlt | hge
  · rw [Nat.div_eq_of_lt hlt, Nat.mod_eq_of_lt hlt, Nat.mod_eq_of_lt (by omega)]
    show 2 ^ k * 1 + n = _
    omega
  · have hone : n / 2 ^ k = 1 := Nat.div_eq_of_lt_le (by omega) (by omega)
    have hmod : n % 2 ^ k = n - 2 ^ k := by
      have := Nat.div_add_mod n (2 ^ k)
      rw [hone] at this
      omega
    have hwrap : (n + 2 ^ k) % (2 * 2 ^ k) = n - 2 ^ k := by
      rw [show n + 2 ^ k = (n - 2 ^ k) + 2 * 2 ^ k by omega, Nat.add_mod_right, Nat.mod_eq_of_lt (by omega)]
    rw [hone, hmod, hwrap]
    show 2 ^ k * 0 + _ = _
    omega

theorem toNat_xor_signBit (s : Int64) : ((s.toUInt64 ^^^ signBit).toNat : Int) = s.toInt + 2 ^ 63 := by
  have hcast := I64.toNat_toUInt64 s
  have hrange := I64.inRange s
  unfold InRange at hrange
  have hxor := nat_xor_two_pow (n := s.toUInt64.toNat) (k := 63) s.toUInt64.toNat_lt
  rw [UInt64.toNat_xor]
  show ((s.toUInt64.toNat ^^^ 2 ^ 63 : Nat) : Int) = _
  rw [hxor]
  split at hcast <;> omega

theorem toBeBytes_succ (width n : Nat) :
    toBeBytes (width + 1) n = UInt8.ofNat (n / 256 ^ width % 256) :: toBeBytes width n := by
  induction width generalizing n with
  | zero => simp [toBeBytes]
  | succ width ih =>
    rw [toBeBytes, ih, Nat.div_div_eq_div_mul, ← Nat.pow_succ', List.cons_append]
    rfl

theorem toBeBytes_mod (width n : Nat) : toBeBytes width (n % 256 ^ width) = toBeBytes width n := by
  have h := Store.toBeBytes_ofBeBytes (toBeBytes width n)
  rwa [Store.length_toBeBytes, Store.ofBeBytes_toBeBytes] at h

theorem offsetBinaryEncoding_beBytes (n : UInt64) : offsetBinaryEncoding (beBytes n) = beBytes (n ^^^ signBit) := by
  have hn := n.toNat_lt
  have hxor : (n ^^^ signBit).toNat = (n.toNat + 2 ^ 63) % 2 ^ 64 := by
    rw [UInt64.toNat_xor]
    exact nat_xor_two_pow (k := 63) hn
  unfold offsetBinaryEncoding beBytes
  rw [toBeBytes_succ 7, toBeBytes_succ 7, List.modifyHead_cons, hxor, List.cons.injEq]
  constructor
  · have hlow : n.toNat / 256 ^ 7 % 256 < 2 ^ 8 := Nat.mod_lt _ (by decide)
    have hhigh : (n.toNat + 2 ^ 63) % 2 ^ 64 / 256 ^ 7 % 256 < 2 ^ 8 := Nat.mod_lt _ (by decide)
    rw [← UInt8.toNat_inj, UInt8.toNat_xor, UInt8.toNat_ofNat_of_lt' hlow, UInt8.toNat_ofNat_of_lt' hhigh]
    show _ ^^^ 2 ^ 7 = _
    rw [nat_xor_two_pow hlow]
    omega
  · have hmod : n.toNat % 256 ^ 7 = (n.toNat + 2 ^ 63) % 2 ^ 64 % 256 ^ 7 := by omega
    rw [← toBeBytes_mod 7 n.toNat, hmod, toBeBytes_mod]

/-! ## Raw ids -/

/-- A position: the room and the count. -/
structure Id where
  shortroomid : UInt64
  shorteventid : Count
  deriving DecidableEq

/-- `[u8; 16]`. -/
abbrev Bytes16 := { bytes : Bytes // bytes.length = 16 }

abbrev RawId := Bytes16

namespace RawId

def shortroomid (raw : RawId) : Bytes := raw.1.take 8

def shorteventid (raw : RawId) : Bytes := (raw.1.drop 8).take 8

/-- `i64::to_be_bytes`, flipped. -/
def ofId (id : Id) : RawId :=
  ⟨beBytes id.shortroomid ++ offsetBinaryEncoding (beBytes id.shorteventid.intoSigned.toUInt64), by
    rw [offsetBinaryEncoding_beBytes, List.length_append, beBytes, beBytes, Store.length_toBeBytes,
      Store.length_toBeBytes]⟩

def toId (raw : RawId) : Id where
  shortroomid := fromBeBytes raw.shortroomid
  shorteventid := .fromSigned (fromBeBytes (offsetBinaryEncoding raw.shorteventid)).toInt64

def pduCount (raw : RawId) : Count := raw.toId.shorteventid

end RawId

namespace Count

/-- `Ord::cmp`. -/
def cmp (a b : Count) : Ordering := compare a.intoSigned b.intoSigned

end Count

/-! ## Timeline keys -/

structure TimelineKey where
  depth : UInt64
  streamOrdering : Int64
  deriving DecidableEq

namespace TimelineKey

/-- The derived `Ord::cmp`. -/
def cmp (a b : TimelineKey) : Ordering :=
  (compare a.depth b.depth).then (compare a.streamOrdering b.streamOrdering)

def toBeBytes (key : TimelineKey) : Bytes16 :=
  ⟨beBytes key.depth ++ beBytes (key.streamOrdering.toUInt64 ^^^ signBit), by
    rw [List.length_append, beBytes, beBytes, Store.length_toBeBytes, Store.length_toBeBytes]⟩

def fromBytes (bytes : Bytes16) : TimelineKey where
  depth := fromBeBytes (bytes.1.take 8)
  streamOrdering := (fromBeBytes ((bytes.1.drop 8).take 8) ^^^ signBit).toInt64

/-- `TryFrom<&[u8]>`. -/
def tryFrom (slice : Bytes) : Option TimelineKey :=
  if h : slice.length = 16 then some (fromBytes ⟨slice, h⟩) else none

end TimelineKey

/-! ## Order and round trips -/

theorem length_beBytes (n : UInt64) : (beBytes n).length = 8 := Store.length_toBeBytes 8 _

theorem take_beBytes (n m : UInt64) : (beBytes n ++ beBytes m).take 8 = beBytes n :=
  List.take_left' (length_beBytes n)

theorem drop_beBytes (n m : UInt64) : ((beBytes n ++ beBytes m).drop 8).take 8 = beBytes m := by
  rw [List.drop_left' (length_beBytes n), List.take_of_length_le (Nat.le_of_eq (length_beBytes m))]

theorem compare_signBit (s t : Int64) :
    compare (s.toUInt64 ^^^ signBit) (t.toUInt64 ^^^ signBit) = compare s t := by
  have hs := toNat_xor_signBit s
  have ht := toNat_xor_signBit t
  rw [compare_uint64, compare_int64]
  exact compareOfLessAndEq_congr (by omega) (by omega)

theorem compare_signed (n m : UInt64) (s t : Int64) :
    compare (beBytes n ++ beBytes (s.toUInt64 ^^^ signBit)) (beBytes m ++ beBytes (t.toUInt64 ^^^ signBit)) =
      (compare n m).then (compare s t) := by
  rw [compare_append (by rw [length_beBytes, length_beBytes]), compare_beBytes, compare_beBytes, compare_signBit]

theorem RawId.ofId_eq (id : Id) :
    (RawId.ofId id).1 = beBytes id.shortroomid ++ beBytes (id.shorteventid.intoSigned.toUInt64 ^^^ signBit) :=
  congrArg (beBytes id.shortroomid ++ ·) (offsetBinaryEncoding_beBytes _)

theorem xor_signBit_twice (n : UInt64) : n ^^^ signBit ^^^ signBit = n := by
  rw [UInt64.xor_assoc, UInt64.xor_self, UInt64.xor_zero]

theorem RawId.toId_ofId (id : Id) :
    (RawId.ofId id).toId = ⟨id.shortroomid, .fromSigned id.shorteventid.intoSigned⟩ := by
  unfold RawId.toId RawId.shortroomid RawId.shorteventid
  rw [RawId.ofId_eq, take_beBytes, drop_beBytes, fromBeBytes_beBytes,
    offsetBinaryEncoding_beBytes, xor_signBit_twice,
    fromBeBytes_beBytes]
  rfl

namespace Count

theorem fromSigned_intoSigned {c : Count} (hc : c.Valid) :
    fromSigned c.intoSigned = c ↔ c ≠ .normal 0 := by
  unfold fromSigned
  cases c with
  | backfilled i =>
    exact iff_of_true (if_pos hc) nofun
  | normal i =>
    have hi : i.toNat < 2 ^ 63 := hc
    have hcast := I64.toInt_toInt64 i
    rw [if_pos hi] at hcast
    unfold intoSigned
    simp only
    have hzero : normal i = normal 0 ↔ i.toNat = 0 := by
      rw [normal.injEq, ← UInt64.toNat_inj]
      rfl
    rw [ne_eq, hzero]
    split
    · exact iff_of_false nofun (by omega)
    · exact iff_of_true rfl (by omega)

theorem cmp_fromSigned (c : Count) : cmp (fromSigned c.intoSigned) c = .eq := by
  have h := (fromSigned_is c.intoSigned).2
  unfold cmp
  rw [compare_int64]
  exact compare_eq_iff_eq.mpr h

end Count

/-- Raw keys and timeline keys are ordered by the room or the depth and then the count.
Timeline keys are read back, and so are raw keys, but the variant of zero: its key is read
as a backfilled count, which compares equal. -/
theorem keys_order_and_round_trip (a b id : Id) (hvalid : id.shorteventid.Valid)
    (hzero : id.shorteventid ≠ .normal 0)
    (key key' : TimelineKey) :
    compare (RawId.ofId a).1 (RawId.ofId b).1 =
        (compare a.shortroomid b.shortroomid).then (a.shorteventid.cmp b.shorteventid) ∧
      (RawId.ofId id).toId = id ∧
      ((RawId.ofId a).toId.shortroomid = a.shortroomid ∧ (RawId.ofId a).toId.shorteventid.cmp
        a.shorteventid = .eq) ∧
      compare key.toBeBytes.1 key'.toBeBytes.1 = key.cmp key' ∧
      TimelineKey.fromBytes key.toBeBytes = key := by
  refine ⟨?_, ?_, ?_, compare_signed .., ?_⟩
  · rw [RawId.ofId_eq, RawId.ofId_eq]
    exact compare_signed ..
  · rw [RawId.toId_ofId, (Count.fromSigned_intoSigned hvalid).mpr hzero]
  · rw [RawId.toId_ofId]
    exact ⟨rfl, Count.cmp_fromSigned _⟩
  · unfold TimelineKey.fromBytes TimelineKey.toBeBytes
    rw [take_beBytes, drop_beBytes, fromBeBytes_beBytes, fromBeBytes_beBytes, xor_signBit_twice]
    rfl

theorem keys_order_and_round_trip_backfilled :
    (RawId.ofId ⟨7, .backfilled (-42)⟩).toId = ⟨7, .backfilled (-42)⟩ ∧
      compare (RawId.ofId ⟨7, .backfilled (-1)⟩).1 (RawId.ofId ⟨7, .normal 3⟩).1 = .lt := by
  obtain ⟨horder, hback, -⟩ := keys_order_and_round_trip ⟨7, .backfilled (-1)⟩ ⟨7, .normal 3⟩ ⟨7, .backfilled (-42)⟩
    (by decide) nofun ⟨1, 2⟩ ⟨3, 4⟩
  exact ⟨hback, horder.trans (by decide)⟩

/-- The two zeros have one key. -/
theorem normal_zero_read_back : (Count.normal 0).Valid ∧
    (RawId.ofId ⟨7, .normal 0⟩).toId = ⟨7, .backfilled 0⟩ ∧ (⟨7, .backfilled 0⟩ : Id) ≠ ⟨7, .normal 0⟩ := by
  refine ⟨by decide, ?_, by decide⟩
  rw [RawId.toId_ofId]
  rfl

end Congruent
