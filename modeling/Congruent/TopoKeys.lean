import Congruent.RawIds

/-!
# Keys of the topological and the timestamp index (`timeline/data.rs`)

A topological key has the room, the depth and the signed count with its sign bit flipped. A
timestamp key has the room, the timestamp, a byte for the variant of the count and the count,
of which only backfilled ones are flipped.
-/

namespace Congruent.TopoKeys

open Words
open Store (Bytes toBeBytes ofBeBytes)

/-- `[u8; 24]`. -/
abbrev Bytes24 := { bytes : Bytes // bytes.length = 24 }

/-! ## The parts of a raw id -/

theorem beBytes_fromBeBytes {bytes : Bytes} (h : bytes.length = 8) : beBytes (fromBeBytes bytes) = bytes := by
  have hlt : ofBeBytes bytes < 2 ^ 64 := by
    have := Store.ofBeBytes_lt bytes
    rwa [h] at this
  have hback := Store.toBeBytes_ofBeBytes bytes
  rw [h] at hback
  unfold beBytes fromBeBytes
  rw [UInt64.toNat_ofNat_of_lt' hlt, hback]

def room (raw : RawId) : UInt64 := fromBeBytes raw.shortroomid

def signed (raw : RawId) : Int64 := (fromBeBytes (offsetBinaryEncoding raw.shorteventid)).toInt64

theorem length_shortroomid (raw : RawId) : raw.shortroomid.length = 8 := by
  rw [RawId.shortroomid, List.length_take, raw.2]
  rfl

theorem length_shorteventid (raw : RawId) : raw.shorteventid.length = 8 := by
  rw [RawId.shorteventid, List.length_take, List.length_drop, raw.2]
  rfl

theorem beBytes_room (raw : RawId) : beBytes (room raw) = raw.shortroomid :=
  beBytes_fromBeBytes (length_shortroomid raw)

theorem beBytes_signed (raw : RawId) : beBytes ((signed raw).toUInt64 ^^^ signBit) = raw.shorteventid := by
  have hflip := offsetBinaryEncoding_beBytes (fromBeBytes raw.shorteventid)
  rw [beBytes_fromBeBytes (length_shorteventid raw)] at hflip
  show beBytes (fromBeBytes (offsetBinaryEncoding raw.shorteventid) ^^^ signBit) = _
  rw [hflip, fromBeBytes_beBytes, xor_signBit_twice, beBytes_fromBeBytes (length_shorteventid raw)]

theorem raw_eq (raw : RawId) : raw.1 = beBytes (room raw) ++ beBytes ((signed raw).toUInt64 ^^^ signBit) := by
  have hcount : raw.shorteventid = raw.1.drop 8 :=
    List.take_of_length_le (by rw [List.length_drop, raw.2])
  rw [beBytes_room, beBytes_signed, hcount, RawId.shortroomid, List.take_append_drop]

theorem room_ofId (id : Id) : room (.ofId id) = id.shortroomid :=
  congrArg Id.shortroomid (RawId.toId_ofId id)

theorem signed_ofId (id : Id) : signed (.ofId id) = id.shorteventid.intoSigned := by
  unfold signed RawId.shorteventid
  rw [RawId.ofId_eq, drop_beBytes, offsetBinaryEncoding_beBytes, xor_signBit_twice, fromBeBytes_beBytes]
  rfl

/-! ## Topological keys -/

theorem toBeBytes_fromBytes (bytes : Bytes16) : (TimelineKey.fromBytes bytes).toBeBytes = bytes := by
  have hhigh : (bytes.1.take 8).length = 8 := by
    rw [List.length_take, bytes.2]
    rfl
  have hlow : (bytes.1.drop 8).length = 8 := by rw [List.length_drop, bytes.2]
  have htake : (bytes.1.drop 8).take 8 = bytes.1.drop 8 := List.take_of_length_le (Nat.le_of_eq hlow)
  apply Subtype.ext
  show beBytes (fromBeBytes (bytes.1.take 8)) ++
    beBytes (fromBeBytes ((bytes.1.drop 8).take 8) ^^^ signBit ^^^ signBit) = _
  rw [xor_signBit_twice, htake, beBytes_fromBeBytes hhigh, beBytes_fromBeBytes hlow, List.take_append_drop]

def topoPducountKey (pduId : RawId) (depth : UInt64) : Bytes24 :=
  let streamOrdering := (fromBeBytes (offsetBinaryEncoding pduId.shorteventid)).toInt64
  let timelineKey : TimelineKey := ⟨depth, streamOrdering⟩
  ⟨pduId.shortroomid ++ timelineKey.toBeBytes.1, by
    rw [List.length_append, length_shortroomid, timelineKey.toBeBytes.2]⟩

def timelineKey (topoKey : Bytes24) : TimelineKey :=
  .fromBytes ⟨topoKey.1.drop 8, by rw [List.length_drop, topoKey.2]⟩

def topoKeyToPduId (topoKey : Bytes24) : RawId :=
  ⟨topoKey.1.take 8 ++ offsetBinaryEncoding (beBytes (timelineKey topoKey).streamOrdering.toUInt64), by
    rw [offsetBinaryEncoding_beBytes, List.length_append, List.length_take, topoKey.2, length_beBytes]
    rfl⟩

theorem topoPducountKey_eq (pduId : RawId) (depth : UInt64) : (topoPducountKey pduId depth).1 =
    beBytes (room pduId) ++ (beBytes depth ++ beBytes ((signed pduId).toUInt64 ^^^ signBit)) := by
  rw [beBytes_room]
  rfl

theorem compare_topoPducountKey (p q : RawId) (depth depth' : UInt64) :
    compare (topoPducountKey p depth).1 (topoPducountKey q depth').1 =
      (compare (room p) (room q)).then ((compare depth depth').then (compare (signed p) (signed q))) := by
  rw [topoPducountKey_eq, topoPducountKey_eq, compare_append (by rw [length_beBytes, length_beBytes]),
    compare_beBytes, compare_signed]

theorem timelineKey_topoPducountKey (pduId : RawId) (depth : UInt64) :
    timelineKey (topoPducountKey pduId depth) = ⟨depth, signed pduId⟩ := by
  have hdrop : (topoPducountKey pduId depth).1.drop 8 =
      beBytes depth ++ beBytes ((signed pduId).toUInt64 ^^^ signBit) := by
    rw [topoPducountKey_eq, List.drop_left' (length_beBytes _)]
  unfold timelineKey TimelineKey.fromBytes
  simp only [hdrop]
  rw [take_beBytes, drop_beBytes, fromBeBytes_beBytes, fromBeBytes_beBytes, xor_signBit_twice]
  rfl

theorem topoKeyToPduId_topoPducountKey (pduId : RawId) (depth : UInt64) :
    topoKeyToPduId (topoPducountKey pduId depth) = pduId := by
  apply Subtype.ext
  unfold topoKeyToPduId
  simp only [timelineKey_topoPducountKey]
  rw [topoPducountKey_eq, List.take_left' (length_beBytes _), offsetBinaryEncoding_beBytes, ← raw_eq]

theorem topoPducountKey_topoKeyToPduId (topoKey : Bytes24) :
    topoPducountKey (topoKeyToPduId topoKey) (timelineKey topoKey).depth = topoKey := by
  have hlen : (topoKey.1.take 8).length = 8 := by
    rw [List.length_take, topoKey.2]
    rfl
  have hroom : (topoKeyToPduId topoKey).shortroomid = topoKey.1.take 8 := List.take_left' hlen
  have hsigned : signed (topoKeyToPduId topoKey) = (timelineKey topoKey).streamOrdering := by
    have hcount : (topoKeyToPduId topoKey).shorteventid =
        beBytes ((timelineKey topoKey).streamOrdering.toUInt64 ^^^ signBit) := by
      show ((topoKey.1.take 8 ++ offsetBinaryEncoding _).drop 8).take 8 = _
      rw [List.drop_left' hlen, offsetBinaryEncoding_beBytes, List.take_of_length_le
        (Nat.le_of_eq (length_beBytes _))]
    unfold signed
    rw [hcount, offsetBinaryEncoding_beBytes, xor_signBit_twice, fromBeBytes_beBytes]
    rfl
  apply Subtype.ext
  rw [topoPducountKey_eq, hsigned, beBytes_room, hroom]
  show topoKey.1.take 8 ++ (timelineKey topoKey).toBeBytes.1 = _
  rw [timelineKey, toBeBytes_fromBytes, List.take_append_drop]

/-! ## Timestamp keys -/

def packTimestampKey (shortroomid : Bytes) (ts : UInt64) (count : Count) : Bytes :=
  shortroomid ++ beBytes ts ++
    match count with
    | .backfilled c => 0 :: beBytes (c.toUInt64 ^^^ signBit)
    | .normal c => 1 :: beBytes c

/-- The count that `pdus_by_timestamp` reads from a key. -/
def timestampCount (k : Bytes) : Option Count :=
  if k.length ≠ 25 then none
  else
    let variant := k[16]?
    let cBytes := (k.drop 17).take 8
    if variant = some 1 then some (.normal (fromBeBytes cBytes))
    else if variant = some 0 then some (.backfilled (fromBeBytes cBytes ^^^ signBit).toInt64)
    else none

def variant : Count → UInt8
  | .backfilled _ => 0
  | .normal _ => 1

/-- What stands behind the timestamp. -/
def countBytes : Count → Bytes
  | .backfilled c => 0 :: beBytes (c.toUInt64 ^^^ signBit)
  | .normal c => 1 :: beBytes c

theorem packTimestampKey_eq (shortroomid : UInt64) (ts : UInt64) (count : Count) :
    packTimestampKey (beBytes shortroomid) ts count = beBytes shortroomid ++ (beBytes ts ++ countBytes count) := by
  cases count <;> simp [packTimestampKey, countBytes]

theorem toInt_toInt64 {i : UInt64} (h : (Count.normal i).Valid) : i.toInt64.toInt = i.toNat := by
  have hlt : i.toNat < 2 ^ 63 := h
  rw [I64.toInt_toInt64, if_pos hlt]

/-- Within a variant the bytes have the order of the counts, and a backfilled count is less
than a live one unless both are zero. -/
theorem compare_countBytes (a b : ValidCount) :
    compare (countBytes a.1) (countBytes b.1) = (a.1.cmp b.1).then (compare (variant a.1) (variant b.1)) := by
  obtain ⟨a, ha⟩ := a
  obtain ⟨b, hb⟩ := b
  cases a with
  | backfilled i =>
    cases b with
    | backfilled j =>
      rw [countBytes, countBytes, List.compare_cons_cons, compare_beBytes, compare_signBit]
      show (compare i j) = (compare i j).then .eq
      cases compare i j <;> rfl
    | normal j =>
      have hle : i.toInt ≤ j.toInt64.toInt := Int.le_trans ha (toInt_toInt64 hb ▸ Int.natCast_nonneg _)
      show Ordering.lt = (compare i j.toInt64).then .lt
      rw [compare_int64]
      rcases Int.lt_or_eq_of_le hle with hlt | heq
      · rw [compare_lt_iff_lt.mpr hlt]
        rfl
      · rw [compare_eq_iff_eq.mpr heq]
        rfl
  | normal i =>
    cases b with
    | backfilled j =>
      have hle : j.toInt ≤ i.toInt64.toInt := Int.le_trans hb (toInt_toInt64 ha ▸ Int.natCast_nonneg _)
      show Ordering.gt = (compare i.toInt64 j).then .gt
      rw [compare_int64]
      rcases Int.lt_or_eq_of_le hle with hlt | heq
      · rw [compare_gt_iff_gt.mpr hlt]
        rfl
      · rw [compare_eq_iff_eq.mpr heq.symm]
        rfl
    | normal j =>
      have hi := toInt_toInt64 ha
      have hj := toInt_toInt64 hb
      rw [countBytes, countBytes, List.compare_cons_cons, compare_beBytes]
      show compare i j = (compare i.toInt64 j.toInt64).then .eq
      rw [compare_uint64, compare_int64, Ordering.then_eq, hi, hj]
      exact compareOfLessAndEq_congr (by omega) (by omega)

theorem timestampCount_packTimestampKey (shortroomid : UInt64) (ts : UInt64) (count : Count) :
    timestampCount (packTimestampKey (beBytes shortroomid) ts count) = some count := by
  have hhead : (beBytes shortroomid ++ beBytes ts).length = 16 := by
    rw [List.length_append, length_beBytes, length_beBytes]
  -- Behind the timestamp: one byte for the variant, then the eight of the count.
  have hread : ∀ (b : UInt8) (c : UInt64), packTimestampKey (beBytes shortroomid) ts count =
      (beBytes shortroomid ++ beBytes ts) ++ b :: beBytes c →
      (packTimestampKey (beBytes shortroomid) ts count).length = 25 ∧
        (packTimestampKey (beBytes shortroomid) ts count)[16]? = some b ∧
        fromBeBytes (((packTimestampKey (beBytes shortroomid) ts count).drop 17).take 8) = c := by
    intro b c hkey
    rw [hkey]
    refine ⟨?_, ?_, ?_⟩
    · rw [List.length_append, hhead, List.length_cons, length_beBytes]
    · rw [List.getElem?_append_right (Nat.le_of_eq hhead), hhead]
      rfl
    · have hdrop : ((beBytes shortroomid ++ beBytes ts) ++ b :: beBytes c).drop 17 = beBytes c := by
        rw [show 17 = (beBytes shortroomid ++ beBytes ts).length + 1 by rw [hhead], ← List.drop_drop,
          List.drop_left' rfl]
        rfl
      rw [hdrop, List.take_of_length_le (Nat.le_of_eq (length_beBytes c)), fromBeBytes_beBytes]
  unfold timestampCount
  cases count with
  | backfilled c =>
    obtain ⟨hlen, hvariant, hcount⟩ := hread 0 _ rfl
    simp only [hlen, hvariant, hcount]
    rw [xor_signBit_twice]
    rfl
  | normal c =>
    obtain ⟨hlen, hvariant, hcount⟩ := hread 1 _ rfl
    simp only [hlen, hvariant, hcount]
    rfl

theorem values_zero {c d : Count} (hc : c.Valid) (hd : d.Valid) (hvariant : variant c ≠ variant d)
    (heq : c.value = d.value) : c.value = 0 ∧ d.value = 0 := by
  cases c with
  | backfilled i =>
    cases d with
    | backfilled j => exact absurd rfl hvariant
    | normal j =>
      have hi : (Count.backfilled i).value ≤ 0 := hc
      have hj : (Count.normal j).value = j.toNat := toInt_toInt64 hd
      omega
  | normal i =>
    cases d with
    | backfilled j =>
      have hi : (Count.normal i).value = i.toNat := toInt_toInt64 hc
      have hj : (Count.backfilled j).value ≤ 0 := hd
      omega
    | normal j => exact absurd rfl hvariant

/-- Topological keys have the order of the room, the depth and the signed count, and the
position of a key is read back. Timestamp keys have the order of the room, the timestamp, the
count and then its variant, which only tells the two zeros apart, and the count is read back. -/
theorem index_keys_order_and_round_trip (a b : UInt64) (depth depth' ts ts' : UInt64) (c d : ValidCount) :
    compare (topoPducountKey (.ofId ⟨a, c⟩) depth).1 (topoPducountKey (.ofId ⟨b, d⟩) depth').1 =
        (compare a b).then ((compare depth depth').then (c.1.cmp d.1)) ∧
      topoKeyToPduId (topoPducountKey (.ofId ⟨a, c⟩) depth) = .ofId ⟨a, c⟩ ∧
      compare (packTimestampKey (beBytes a) ts c) (packTimestampKey (beBytes b) ts' d) =
        (compare a b).then ((compare ts ts').then ((c.1.cmp d.1).then (compare (variant c) (variant d)))) ∧
      (variant c ≠ variant d → c.1.cmp d.1 = .eq → c.1.value = 0 ∧ d.1.value = 0) ∧
      timestampCount (packTimestampKey (beBytes a) ts c) = some c.1 := by
  refine ⟨?_, topoKeyToPduId_topoPducountKey _ _, ?_, ?_, timestampCount_packTimestampKey a ts c⟩
  · rw [compare_topoPducountKey, room_ofId, room_ofId, signed_ofId, signed_ofId]
    rfl
  · rw [packTimestampKey_eq, packTimestampKey_eq, compare_append (by rw [length_beBytes, length_beBytes]),
      compare_append (by rw [length_beBytes, length_beBytes]), compare_beBytes, compare_beBytes, compare_countBytes]
  · intro hvariant hcmp
    obtain ⟨c, hc⟩ := c
    obtain ⟨d, hd⟩ := d
    unfold Count.cmp at hcmp
    rw [compare_int64, compare_eq_iff_eq] at hcmp
    exact values_zero hc hd hvariant hcmp

/-- `Backfilled(0)` and `Normal(0)` compare equal, and their keys do not. -/
theorem zero_counts_differ : (Count.backfilled 0).Valid ∧ (Count.normal 0).Valid ∧
    (Count.backfilled 0).cmp (.normal 0) = .eq ∧
    compare (packTimestampKey (beBytes 7) 1 (.backfilled 0))
      (packTimestampKey (beBytes 7) 1 (.normal 0)) = .lt := by
  refine ⟨by decide, by decide, by decide, ?_⟩
  rw [packTimestampKey_eq, packTimestampKey_eq, compare_append rfl, compare_append rfl,
    compare_countBytes ⟨.backfilled 0, by decide⟩ ⟨.normal 0, by decide⟩]
  decide

end Congruent.TopoKeys
