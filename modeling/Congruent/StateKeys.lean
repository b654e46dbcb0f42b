import Congruent.ShortIds

/-!
# The format of state keys

A version byte and two texts, each behind its length. What is encoded is decoded, and
the decoder accepts nothing but what the encoder makes.
-/

namespace Congruent.ShortIds

open Store

/-- What the decoder reads from bytes that it accepts. -/
theorem decodeStateKey_parts {encoded : Bytes} {eventType stateKey : String}
    (h : decodeStateKey encoded = .ok (eventType, stateKey)) :
    ∃ typeLen keyLen : Bytes, typeLen.length = 4 ∧ keyLen.length = 4 ∧
      (utf8 eventType).length = ofBeBytes typeLen.reverse ∧ (utf8 stateKey).length = ofBeBytes keyLen.reverse ∧
      encoded = [1] ++ typeLen ++ utf8 eventType ++ keyLen ++ utf8 stateKey := by
  unfold decodeStateKey at h
  simp only [bind] at h
  cases hv : splitAt 1 encoded with
  | none => simp [hv] at h
  | some v =>
    obtain ⟨version, afterVersion⟩ := v
    simp only [hv, Option.bind_some, ne_eq, ite_not] at h
    split at h
    · rename_i hversion
      cases ht : splitAt 4 afterVersion with
      | none => simp [ht] at h
      | some t =>
        obtain ⟨typeLen, afterTypeLen⟩ := t
        simp only [ht, Option.bind_some] at h
        cases he : splitAt (ofBeBytes typeLen.reverse) afterTypeLen with
        | none => simp [he] at h
        | some e =>
          obtain ⟨type, afterType⟩ := e
          simp only [he, Option.bind_some] at h
          cases hk : splitAt 4 afterType with
          | none => simp [hk] at h
          | some k =>
            obtain ⟨keyLen, key⟩ := k
            simp only [hk, Option.bind_some] at h
            split at h
            · rename_i hlen
              cases htext : ofUtf8 type with
              | none => simp [htext] at h
              | some typeText =>
                cases hkey : ofUtf8 key with
                | none => simp [htext, hkey] at h
                | some keyText =>
                  simp only [htext, hkey, Option.bind_some, Option.elim_some, Except.ok.injEq, Prod.mk.injEq] at h
                  obtain ⟨rfl, rfl⟩ := h
                  obtain ⟨hencoded, -⟩ := of_splitAt hv
                  obtain ⟨hafterVersion, htypeLen⟩ := of_splitAt ht
                  obtain ⟨hafterTypeLen, htype⟩ := of_splitAt he
                  obtain ⟨hafterType, hkeyLen⟩ := of_splitAt hk
                  rw [utf8_of_ofUtf8 htext, utf8_of_ofUtf8 hkey]
                  refine ⟨typeLen, keyLen, htypeLen, hkeyLen, htype, hlen, ?_⟩
                  rw [hencoded, hversion, hafterVersion, hafterTypeLen, hafterType]
                  simp only [List.append_assoc]
            · simp at h
    · simp at h

theorem lengthBytes {bytes : Bytes} (h : bytes.length = 4) :
    ofBeBytes bytes.reverse ≤ u32Max ∧ (toBeBytes 4 (ofBeBytes bytes.reverse)).reverse = bytes := by
  have hlen : bytes.reverse.length = 4 := by rw [List.length_reverse, h]
  have hlt := ofBeBytes_lt bytes.reverse
  have hbytes := toBeBytes_ofBeBytes bytes.reverse
  rw [hlen] at hlt hbytes
  constructor
  · unfold u32Max
    omega
  · rw [hbytes, List.reverse_reverse]

theorem encodeStateKey_ok {eventType stateKey : String} (ht : (utf8 eventType).length ≤ u32Max)
    (hk : (utf8 stateKey).length ≤ u32Max) :
    encodeStateKey eventType stateKey =
      .ok ([1] ++ (toBeBytes 4 (utf8 eventType).length).reverse ++ utf8 eventType ++
      (toBeBytes 4 (utf8 stateKey).length).reverse ++ utf8 stateKey) := by
  unfold encodeStateKey
  rw [if_neg (Nat.not_lt.mpr ht), if_neg (Nat.not_lt.mpr hk)]

theorem encodeStateKey_of_decodeStateKey {encoded : Bytes} {eventType stateKey : String}
    (h : decodeStateKey encoded = .ok (eventType, stateKey)) : encodeStateKey eventType stateKey = .ok encoded := by
  obtain ⟨typeLen, keyLen, htypeLen, hkeyLen, ht, hk, hencoded⟩ := decodeStateKey_parts h
  obtain ⟨htle, htbytes⟩ := lengthBytes htypeLen
  obtain ⟨hkle, hkbytes⟩ := lengthBytes hkeyLen
  rw [encodeStateKey_ok (ht ▸ htle) (hk ▸ hkle), ht, hk, htbytes, hkbytes, hencoded]

/-- Pairs of texts that fit in 32 bits are encoded, decoding gives them back, different ones
have different encodings, and the decoder accepts no other bytes. -/
theorem stateKey_format :
    (∀ eventType stateKey : String, (utf8 eventType).length < 2 ^ 32 → (utf8 stateKey).length < 2 ^ 32 →
      ∃ encoded, encodeStateKey eventType stateKey = .ok encoded ∧
        decodeStateKey encoded = .ok (eventType, stateKey)) ∧
    (∀ eventType stateKey eventType' stateKey' encoded, encodeStateKey eventType stateKey = .ok encoded →
      encodeStateKey eventType' stateKey' = .ok encoded → eventType = eventType' ∧ stateKey = stateKey') ∧
    ∀ encoded eventType stateKey, decodeStateKey encoded = .ok (eventType, stateKey) →
      encodeStateKey eventType stateKey = .ok encoded := by
  refine ⟨fun eventType stateKey ht hk => ?_, fun t k t' k' encoded h h' => ?_, fun _ _ _ h => ?_⟩
  · have hencode := @encodeStateKey_ok eventType stateKey (by unfold u32Max; omega) (by unfold u32Max; omega)
    exact ⟨_, hencode, decodeStateKey_encodeStateKey hencode⟩
  · have heq := (decodeStateKey_encodeStateKey h).symm.trans (decodeStateKey_encodeStateKey h')
    rw [Except.ok.injEq, Prod.mk.injEq] at heq
    exact heq
  · exact encodeStateKey_of_decodeStateKey h

theorem stateKey_format_empty : ∃ encoded, encodeStateKey "m.room.name" "" = .ok encoded ∧
    decodeStateKey encoded = .ok ("m.room.name", "") :=
  stateKey_format.1 "m.room.name" "" (by decide) (by decide)

end Congruent.ShortIds
