import Mathlib.Algebra.Ring.Int.Defs
import Congruent.Store

/-!
# Tuples in keys (`database/ser.rs`, `database/de.rs`)

The fields of a tuple are written one after the other with a separator between two of
them, and read back from the types of the fields alone.
-/

namespace Congruent.KeyTuples

open Store (Bytes toBeBytes ofBeBytes utf8 ofUtf8)

/-! ## Types -/

/-- The types both codecs know; `bytes` are raw. -/
inductive Kind where
  | str
  | i32
  | i64
  | u64
  | bool
  | bytes
deriving DecidableEq, Repr

abbrev Kind.Value : Kind → Type
  | .str => String
  | .i32 => Int32
  | .i64 => Int64
  | .u64 => UInt64
  | .bool => Bool
  | .bytes => Bytes

inductive Field where
  | plain (kind : Kind)
  | option (kind : Kind)
deriving DecidableEq, Repr

def Field.kind : Field → Kind
  | plain kind | option kind => kind

abbrev Field.Value : Field → Type
  | plain kind => kind.Value
  | option kind => Option kind.Value

abbrev Tuple : List Field → Type
  | [] => Unit
  | field :: fields => field.Value × Tuple fields

structure TupleType where
  fields : List Field
  two_le : 2 ≤ fields.length
  le_six : fields.length ≤ 6
  bytes_last : ∀ field ∈ fields.dropLast, field.kind ≠ .bytes

/-! ## `ser.rs` -/

def SEP : UInt8 := 0xFF

structure Serializer where
  out : Bytes
  sep : Bool

namespace Serializer

def write (ser : Serializer) (buf : Bytes) : Serializer := { ser with out := ser.out ++ buf }

def separator (ser : Serializer) : Serializer := ser.write [SEP]

def recordStart (ser : Serializer) : Serializer :=
  if ser.sep then ser.separator else { ser with sep := true }

def serializeKind (ser : Serializer) : (kind : Kind) → kind.Value → Serializer
  | .str, v => ser.write (utf8 v)
  | .i32, v => ser.write (toBeBytes 4 v.toUInt32.toNat)
  | .i64, v => ser.write (toBeBytes 8 v.toUInt64.toNat)
  | .u64, v => ser.write (toBeBytes 8 v.toNat)
  | .bool, v => ser.write [if v then 1 else 0]
  | .bytes, v => ser.write v

def serializeField (ser : Serializer) : (field : Field) → field.Value → Serializer
  | .plain kind, v => ser.serializeKind kind v
  | .option kind, some v => ser.serializeKind kind v
  | .option _, none => ser

def serializeElements (ser : Serializer) : (fields : List Field) → Tuple fields → Serializer
  | [], _ => ser
  | field :: fields, (v, vs) => (ser.recordStart.serializeField field v).serializeElements fields vs

end Serializer

def serializeToVec (fields : List Field) (v : Tuple fields) : Bytes :=
  (Serializer.serializeElements ⟨[], false⟩ fields v).out

/-! ## `de.rs` -/

inductive DeErr where
  /-- `i32 buffer underflow` and the like. -/
  | underflow (kind : Kind)
  | utf8
  /-- The tuple ended after this many elements. -/
  | invalidLength (len : Nat)
deriving DecidableEq, Repr

structure Deserializer where
  buf : Bytes
  pos : Nat
  recs : Nat

namespace Deserializer

def incPos (de : Deserializer) (n : Nat) : Deserializer := { de with pos := de.pos + n }

def recordStart (de : Deserializer) : Deserializer :=
  { de with pos := de.pos + (if de.pos ≠ 0 ∨ de.recs > 0 then 1 else 0), recs := de.recs + 1 }

def recordNext (de : Deserializer) : Bytes × Deserializer :=
  let record := (de.buf.drop de.pos).takeWhile (· ≠ SEP)
  (record, de.incPos record.length)

def recordTrail (de : Deserializer) : Bytes × Deserializer :=
  let record := de.buf.drop de.pos
  (record, de.incPos record.length)

/-- The integers and the booleans. -/
def deserializeFixed (de : Deserializer) (kind : Kind) (width : Nat) (value : Nat → α) : Except DeErr
    (α × Deserializer) :=
  let bytes := (de.buf.drop de.pos).take width
  if bytes.length < width then .error (.underflow kind) else .ok (value (ofBeBytes bytes), de.incPos width)

def deserializeKind (de : Deserializer) : (kind : Kind) → Except DeErr (kind.Value × Deserializer)
  | .str => do
    let (input, de) := de.recordNext
    match ofUtf8 input with
    | some out => .ok (out, de)
    | none => .error .utf8
  | .i32 => de.deserializeFixed .i32 4 fun n => (UInt32.ofNat n).toInt32
  | .i64 => de.deserializeFixed .i64 8 fun n => (UInt64.ofNat n).toInt64
  | .u64 => de.deserializeFixed .u64 8 UInt64.ofNat
  | .bool => de.deserializeFixed .bool 1 (· != 0)
  | .bytes => .ok de.recordTrail

def deserializeField (de : Deserializer) : (field : Field) → Except DeErr (field.Value × Deserializer)
  | .plain kind => de.deserializeKind kind
  | .option kind =>
    -- An absent value is told by the byte at the position.
    match de.buf[de.pos]? with
    | none => .ok (none, de)
    | some b =>
      if b = SEP then .ok (none, de)
      else match de.deserializeKind kind with
        | .ok (v, de) => .ok (some v, de)
        | .error e => .error e

/-- `next_element_seed`: no element when the input is used up. -/
def nextElement (de : Deserializer) (field : Field) : Except DeErr (Option (field.Value × Deserializer)) :=
  if de.buf.length ≤ de.pos then .ok none
  else match de.recordStart.deserializeField field with
    | .ok (v, de) => .ok (some (v, de))
    | .error e => .error e

def visitSeq (de : Deserializer) (len : Nat) : (fields : List Field) → Except DeErr (Tuple fields)
  | [] => .ok ()
  | field :: fields =>
    match de.nextElement field with
    | .error e => .error e
    | .ok none => .error (.invalidLength len)
    | .ok (some (v, de)) => match de.visitSeq (len + 1) fields with
      | .ok vs => .ok (v, vs)
      | .error e => .error e

end Deserializer

def fromSlice (fields : List Field) (buf : Bytes) : Except DeErr (Tuple fields) :=
  Deserializer.visitSeq ⟨buf, 0, 0⟩ 0 fields

/-! ## Bytes of a value -/

def Kind.bytesOf : (kind : Kind) → kind.Value → Bytes
  | .str, v => utf8 v
  | .i32, v => toBeBytes 4 v.toUInt32.toNat
  | .i64, v => toBeBytes 8 v.toUInt64.toNat
  | .u64, v => toBeBytes 8 v.toNat
  | .bool, v => [if v then 1 else 0]
  | .bytes, v => v

def Field.bytesOf : (field : Field) → field.Value → Bytes
  | .plain kind, v => kind.bytesOf v
  | .option kind, some v => kind.bytesOf v
  | .option _, none => []

def bytesAfter : (fields : List Field) → Tuple fields → Bytes
  | [], _ => []
  | field :: fields, (v, vs) => SEP :: field.bytesOf v ++ bytesAfter fields vs

theorem Serializer.serializeKind_out (ser : Serializer) (kind : Kind) (v : kind.Value) :
    ser.serializeKind kind v = ser.write (kind.bytesOf v) := by
  cases kind <;> rfl

theorem Serializer.serializeField_eq (ser : Serializer) (field : Field) (v : field.Value) :
    ser.serializeField field v = ser.write (field.bytesOf v) := by
  match field, v with
  | .plain kind, v => exact ser.serializeKind_out kind v
  | .option kind, some v => exact ser.serializeKind_out kind v
  | .option _, none => simp [serializeField, Field.bytesOf, write]

theorem Serializer.serializeElements_out (out : Bytes) (fields : List Field) (vs : Tuple fields) :
    (serializeElements ⟨out, true⟩ fields vs).out = out ++ bytesAfter fields vs := by
  induction fields generalizing out with
  | nil => simp [serializeElements, bytesAfter]
  | cons field fields ih =>
    obtain ⟨v, vs⟩ := vs
    rw [serializeElements, serializeField_eq]
    have hstart : (⟨out, true⟩ : Serializer).recordStart.write (field.bytesOf v) =
        ⟨out ++ [SEP] ++ field.bytesOf v, true⟩ := rfl
    rw [hstart, ih]
    simp [bytesAfter]

theorem serializeToVec_cons (field : Field) (fields : List Field) (v : field.Value) (vs : Tuple fields) :
    serializeToVec (field :: fields) (v, vs) = field.bytesOf v ++ bytesAfter fields vs := by
  rw [serializeToVec, Serializer.serializeElements, Serializer.serializeField_eq]
  exact Serializer.serializeElements_out (field.bytesOf v) fields vs

/-- An optional value whose bytes look like the absent one's. -/
def Kind.TakenForNone : (kind : Kind) → kind.Value → Prop
  | .str, v => v = ""
  | .i32, v => -2 ^ 24 ≤ v.toInt ∧ v.toInt < 0
  | .i64, v => -2 ^ 56 ≤ v.toInt ∧ v.toInt < 0
  | .u64, v => 255 * 2 ^ 56 ≤ v.toNat
  | .bool, _ => False
  | .bytes, v => v.head? = none ∨ v.head? = some SEP

def Field.TakenForNone : (field : Field) → field.Value → Prop
  | .option kind, some v => kind.TakenForNone v
  | _, _ => False

/-- No field holds a value that is read back as an absent one. -/
def NoneTaken : (fields : List Field) → Tuple fields → Prop
  | [], _ => True
  | field :: fields, (v, vs) => ¬ field.TakenForNone v ∧ NoneTaken fields vs

/-! ## First bytes -/

theorem head?_toBeBytes (width n : Nat) :
    (toBeBytes (width + 1) n).head? = some (UInt8.ofNat (n / 256 ^ width % 256)) := by
  induction width generalizing n with
  | zero => simp [toBeBytes]
  | succ width ih =>
    rw [toBeBytes, List.head?_append, ih, Nat.div_div_eq_div_mul, ← Nat.pow_succ']
    rfl

theorem ofNat_eq_SEP {n : Nat} (h : n < 256) : UInt8.ofNat n = SEP ↔ n = 255 := by
  rw [← UInt8.toNat_inj, UInt8.toNat_ofNat_of_lt' (by simpa using h)]
  rfl

theorem SEP_notMem_utf8EncodeChar (c : Char) : SEP ∉ String.utf8EncodeChar c := by
  have hc : c.val.toNat < 0x110000 := by
    rcases c.valid with h | h <;> omega
  intro hmem
  simp only [String.utf8EncodeChar] at hmem
  split at hmem
  · simp only [List.mem_singleton] at hmem
    have := (ofNat_eq_SEP (by omega)).1 hmem.symm
    omega
  · split at hmem
    · simp only [List.mem_cons, List.not_mem_nil, or_false] at hmem
      rcases hmem with h | h <;> have := (ofNat_eq_SEP (by omega)).1 h.symm <;> omega
    · split at hmem
      · simp only [List.mem_cons, List.not_mem_nil, or_false] at hmem
        rcases hmem with h | h | h <;> have := (ofNat_eq_SEP (by omega)).1 h.symm <;> omega
      · simp only [List.mem_cons, List.not_mem_nil, or_false] at hmem
        rcases hmem with h | h | h | h <;> have := (ofNat_eq_SEP (by omega)).1 h.symm <;> omega

theorem SEP_notMem_utf8 (s : String) : SEP ∉ utf8 s := by
  obtain ⟨m, hm⟩ := s.isValidUTF8
  have hbytes : utf8 s = m.flatMap String.utf8EncodeChar := by simp [utf8, hm, List.utf8Encode]
  intro hmem
  rw [hbytes] at hmem
  obtain ⟨c, -, hc⟩ := List.mem_flatMap.1 hmem
  exact SEP_notMem_utf8EncodeChar c hc

theorem utf8_eq_nil_iff (s : String) : utf8 s = [] ↔ s = "" := by
  constructor
  · intro h
    have hback := Store.ofUtf8_utf8 s
    rw [h] at hback
    exact (Option.some.inj hback).symm.trans rfl
  · rintro rfl
    rfl

theorem Int32.first_byte (v : Int32) :
    v.toUInt32.toNat / 256 ^ 3 % 256 = 255 ↔ -2 ^ 24 ≤ v.toInt ∧ v.toInt < 0 := by
  have hlt := v.toUInt32.toNat_lt
  have hint : v.toInt = if 2 * v.toUInt32.toNat < 2 ^ 32 then (v.toUInt32.toNat : Int) else
      v.toUInt32.toNat - 2 ^ 32 := by
    rw [← Int32.toInt_toBitVec, BitVec.toInt_eq_toNat_cond]
    rfl
  rw [hint]
  split <;> omega

theorem Int64.first_byte (v : Int64) :
    v.toUInt64.toNat / 256 ^ 7 % 256 = 255 ↔ -2 ^ 56 ≤ v.toInt ∧ v.toInt < 0 := by
  have hlt := v.toUInt64.toNat_lt
  have hint : v.toInt = if 2 * v.toUInt64.toNat < 2 ^ 64 then (v.toUInt64.toNat : Int) else
      v.toUInt64.toNat - 2 ^ 64 := by
    rw [← Int64.toInt_toBitVec, BitVec.toInt_eq_toNat_cond]
    rfl
  rw [hint]
  split <;> omega

theorem Kind.head_bytesOf_iff (kind : Kind) (v : kind.Value) :
    (∀ b ∈ (kind.bytesOf v).head?, b = SEP) ↔ kind.TakenForNone v := by
  match kind, v with
  | .str, v =>
    simp only [Kind.bytesOf, Kind.TakenForNone]
    rw [← utf8_eq_nil_iff]
    cases hv : utf8 v with
    | nil => simp
    | cons b rest =>
      have hb : SEP ∉ b :: rest := hv ▸ SEP_notMem_utf8 v
      simp only [List.head?_cons, Option.mem_some_iff, forall_eq', reduceCtorEq, iff_false]
      rintro rfl
      exact hb List.mem_cons_self
  | .i32, v =>
    simp only [Kind.bytesOf, Kind.TakenForNone, head?_toBeBytes, Option.mem_some_iff, forall_eq']
    rw [ofNat_eq_SEP (Nat.mod_lt _ (by decide)), Int32.first_byte]
  | .i64, v =>
    simp only [Kind.bytesOf, Kind.TakenForNone, head?_toBeBytes, Option.mem_some_iff, forall_eq']
    rw [ofNat_eq_SEP (Nat.mod_lt _ (by decide)), Int64.first_byte]
  | .u64, v =>
    simp only [Kind.bytesOf, Kind.TakenForNone, head?_toBeBytes, Option.mem_some_iff, forall_eq']
    rw [ofNat_eq_SEP (Nat.mod_lt _ (by decide))]
    have hlt := v.toNat_lt
    omega
  | .bool, v => cases v <;> simp [Kind.bytesOf, Kind.TakenForNone, SEP]
  | .bytes, v => cases v <;> simp [Kind.bytesOf, Kind.TakenForNone]

/-! ## Reading back -/

namespace Deserializer

theorem deserializeFixed_ok {de : Deserializer} {kind : Kind} {width n : Nat} {value : Nat → α} {tail : Bytes}
    (h : de.buf.drop de.pos = toBeBytes width n ++ tail) :
    de.deserializeFixed kind width value = .ok (value (n % 256 ^ width), de.incPos width) := by
  have htake : (de.buf.drop de.pos).take width = toBeBytes width n := by
    rw [h, List.take_left' (Store.length_toBeBytes width n)]
  simp only [deserializeFixed, htake, Store.length_toBeBytes, Nat.lt_irrefl, if_false, Store.ofBeBytes_toBeBytes]

theorem recordNext_ok {de : Deserializer} {record tail : Bytes} (h : de.buf.drop de.pos = record ++ tail)
    (hrecord : SEP ∉ record) (htail : ∀ b ∈ tail.head?, b = SEP) :
    de.recordNext = (record, de.incPos record.length) := by
  have hnone : tail.takeWhile (· ≠ SEP) = [] := by
    cases tail with
    | nil => rfl
    | cons b tail =>
      have hb : b = SEP := htail b rfl
      simp [hb]
  have htake : (de.buf.drop de.pos).takeWhile (· ≠ SEP) = record := by
    rw [h, List.takeWhile_append_of_pos fun b hb => by simpa using fun heq : b = SEP => hrecord (heq ▸ hb), hnone,
      List.append_nil]
  simp only [recordNext, htake]

theorem deserializeKind_ok {de : Deserializer} {kind : Kind} {v : kind.Value} {tail : Bytes}
    (h : de.buf.drop de.pos = kind.bytesOf v ++ tail) (htail : ∀ b ∈ tail.head?, b = SEP)
    (hlast : kind = .bytes → tail = []) :
    de.deserializeKind kind = .ok (v, de.incPos (kind.bytesOf v).length) := by
  match kind, v with
  | .str, v =>
    have hnext := recordNext_ok h (SEP_notMem_utf8 v) htail
    simp only [deserializeKind, hnext, Kind.bytesOf, Store.ofUtf8_utf8]
  | .i32, v =>
    have hlt : v.toUInt32.toNat < 256 ^ 4 := v.toUInt32.toNat_lt
    rw [deserializeKind, deserializeFixed_ok h, Nat.mod_eq_of_lt hlt]
    simp [Kind.bytesOf]
  | .i64, v =>
    have hlt : v.toUInt64.toNat < 256 ^ 8 := v.toUInt64.toNat_lt
    rw [deserializeKind, deserializeFixed_ok h, Nat.mod_eq_of_lt hlt]
    simp [Kind.bytesOf]
  | .u64, v =>
    have hlt : v.toNat < 256 ^ 8 := v.toNat_lt
    rw [deserializeKind, deserializeFixed_ok h, Nat.mod_eq_of_lt hlt]
    simp [Kind.bytesOf]
  | .bool, v =>
    have hbyte : Kind.bool.bytesOf v = toBeBytes 1 v.toNat := by cases v <;> rfl
    rw [hbyte] at h ⊢
    rw [deserializeKind, deserializeFixed_ok h]
    cases v <;> rfl
  | .bytes, v =>
    have htrail : de.buf.drop de.pos = v := by
      rw [h, hlast rfl]
      exact List.append_nil v
    simp only [deserializeKind, recordTrail, htrail]
    rfl

theorem deserializeField_ok (de : Deserializer) {field : Field} {v : field.Value} {tail : Bytes}
    (h : de.buf.drop de.pos = field.bytesOf v ++ tail) (htail : ∀ b ∈ tail.head?, b = SEP)
    (hlast : field.kind = .bytes → tail = []) (hv : ¬ field.TakenForNone v) :
    de.deserializeField field = .ok (v, de.incPos (field.bytesOf v).length) := by
  match field, v with
  | .plain kind, v => exact deserializeKind_ok h htail hlast
  | .option kind, none =>
    have hhead : ∀ b ∈ de.buf[de.pos]?, b = SEP := by
      rw [← List.head?_drop, h]
      exact htail
    rw [deserializeField]
    split
    · rfl
    · next b hb =>
      rw [if_pos (hhead b hb)]
      rfl
  | .option kind, some v =>
    have hne : ∃ b ∈ (kind.bytesOf v).head?, b ≠ SEP := by
      have := (not_congr (kind.head_bytesOf_iff v)).2 hv
      push Not at this
      exact this
    obtain ⟨b, hb, hsep⟩ := hne
    have hhead : de.buf[de.pos]? = some b := by
      rw [← List.head?_drop, h, Field.bytesOf, List.head?_append, hb]
      rfl
    have hkind := deserializeKind_ok h htail hlast
    simp only [deserializeField, hhead, if_neg hsep, hkind]
    rfl

theorem deserializeField_taken {de : Deserializer} {field : Field} {v : field.Value} {tail : Bytes}
    (h : de.buf.drop de.pos = field.bytesOf v ++ tail) (htail : ∀ b ∈ tail.head?, b = SEP)
    (hv : field.TakenForNone v) :
    (∀ b ∈ de.buf[de.pos]?, b = SEP) ∧ ∃ w, w ≠ v ∧ de.deserializeField field = .ok (w, de) := by
  match field, v with
  | .option kind, some v =>
    have hbytes := (kind.head_bytesOf_iff v).2 hv
    have hhead : ∀ b ∈ de.buf[de.pos]?, b = SEP := by
      rw [← List.head?_drop, h, Field.bytesOf, List.head?_append]
      cases hhd : (kind.bytesOf v).head? with
      | none => exact htail
      | some b =>
        rw [hhd] at hbytes
        exact hbytes
    refine ⟨hhead, none, nofun, ?_⟩
    rw [deserializeField]
    split
    · rfl
    · next b hb => rw [if_pos (hhead b hb)]

end Deserializer

theorem head?_bytesAfter (fields : List Field) (vs : Tuple fields) : ∀ b ∈ (bytesAfter fields vs).head?,
    b = SEP := by
  cases fields with
  | nil => intro b hb; cases hb
  | cons field fields =>
    intro b hb
    exact (Option.mem_some_iff.1 hb).symm

section
variable {field : Field} {fields : List Field}

theorem bytes_last_tail (h : ∀ f ∈ (field :: fields).dropLast, f.kind ≠ .bytes) : ∀ f ∈ fields.dropLast,
    f.kind ≠ .bytes := by
  intro f hf
  cases fields with
  | nil => cases hf
  | cons g fields => exact h f (List.mem_cons_of_mem _ hf)

theorem bytesAfter_of_bytes (h : ∀ f ∈ (field :: fields).dropLast, f.kind ≠ .bytes) (hkind : field.kind = .bytes)
    (vs : Tuple fields) : bytesAfter fields vs = [] := by
  cases fields with
  | nil => rfl
  | cons g fields => exact absurd hkind (h field List.mem_cons_self)

end

namespace Deserializer

theorem visitSeq_cons_iff {de : Deserializer} {field : Field} {fields : List Field}
    {v : field.Value} {vs : Tuple fields}
    {len : Nat} (hpos : de.pos < de.buf.length)
    (h : de.buf.drop de.recordStart.pos = field.bytesOf v ++ bytesAfter fields vs)
    (hlast : ∀ f ∈ (field :: fields).dropLast, f.kind ≠ .bytes)
    (hrest : ∀ rest : Deserializer, rest.buf.drop rest.pos = bytesAfter fields vs → 0 < rest.recs →
      (rest.visitSeq (len + 1) fields = .ok vs ↔ NoneTaken fields vs)) :
    de.visitSeq len (field :: fields) = .ok (v, vs) ↔ NoneTaken (field :: fields) (v, vs) := by
  have htail := head?_bytesAfter fields vs
  rw [visitSeq, nextElement, if_neg (Nat.not_le_of_lt hpos), NoneTaken]
  by_cases hv : field.TakenForNone v
  · constructor
    · intro hread
      -- Whatever follows, this field is another one.
      obtain ⟨-, w, hne, hfield⟩ := deserializeField_taken h htail hv
      simp only [hfield] at hread
      split at hread
      · cases hread
        exact absurd rfl hne
      · cases hread
    · exact fun hclear => absurd hv hclear.1
  · have hfield := deserializeField_ok de.recordStart h htail (fun hkind => bytesAfter_of_bytes hlast hkind vs) hv
    have hdrop : (de.recordStart.incPos (field.bytesOf v).length).buf.drop
        (de.recordStart.incPos (field.bytesOf v).length).pos = bytesAfter fields vs := by
      show de.buf.drop (de.recordStart.pos + (field.bytesOf v).length) = _
      rw [← List.drop_drop, h, List.drop_left' rfl]
    have hstep := hrest _ hdrop (Nat.succ_pos de.recs)
    simp only [hfield]
    constructor
    · intro hread
      split at hread
      · next ws hws =>
        cases hread
        exact ⟨hv, hstep.1 hws⟩
      · cases hread
    · intro hclear
      rw [hstep.2 hclear.2]

theorem visitSeq_iff {de : Deserializer} {fields : List Field} {vs : Tuple fields} {len : Nat}
    (h : de.buf.drop de.pos = bytesAfter fields vs) (hstart : 0 < de.recs)
    (hlast : ∀ f ∈ fields.dropLast, f.kind ≠ .bytes) :
    de.visitSeq len fields = .ok vs ↔ NoneTaken fields vs := by
  induction fields generalizing de len with
  | nil => simp [visitSeq, NoneTaken]
  | cons field fields ih =>
    obtain ⟨v, vs⟩ := vs
    have hpos : de.pos < de.buf.length := by
      by_contra hge
      rw [List.drop_eq_nil_of_le (Nat.le_of_not_lt hge)] at h
      cases h
    have hrest : de.buf.drop de.recordStart.pos = field.bytesOf v ++ bytesAfter fields vs := by
      have hstarted : de.recordStart.pos = de.pos + 1 := by
        simp only [recordStart, if_pos (Or.inr hstart : de.pos ≠ 0 ∨ de.recs > 0)]
      rw [hstarted, ← List.drop_drop, h]
      rfl
    apply visitSeq_cons_iff hpos hrest hlast
    intro rest hdrop hrecs
    exact ih hdrop hrecs (bytes_last_tail hlast)

end Deserializer

/-- A tuple is read back from its bytes exactly when no optional field holds a value that
looks like the absent one. -/
theorem key_tuples_decode (t : TupleType) (v : Tuple t.fields) :
    fromSlice t.fields (serializeToVec t.fields v) = .ok v ↔ NoneTaken t.fields v := by
  obtain ⟨fields, htwo, -, hlast⟩ := t
  rcases fields with - | ⟨field, - | ⟨next, fields⟩⟩
  · exact absurd htwo (by decide)
  · exact absurd htwo (by simp)
  · obtain ⟨v, vs⟩ := v
    have hbuf := serializeToVec_cons field (next :: fields) v vs
    apply Deserializer.visitSeq_cons_iff
    · show 0 < (serializeToVec (field :: next :: fields) (v, vs)).length
      rw [hbuf, List.length_append]
      exact Nat.lt_of_lt_of_le (Nat.succ_pos _) (Nat.le_add_left _ _)
    · exact hbuf
    · exact hlast
    · intro rest hdrop hrecs
      exact Deserializer.visitSeq_iff hdrop hrecs (bytes_last_tail hlast)

/-- `(Option<i64>, String)`. -/
def signedKey : TupleType := ⟨[.option .i64, .plain .str], by decide, by decide, by decide⟩

/-- `(Some(-1), "a")` comes back as `(None, "")`. -/
theorem minus_one_becomes_none :
    ¬ ∀ (t : TupleType) (v : Tuple t.fields), fromSlice t.fields (serializeToVec t.fields v) = .ok v := by
  intro h
  have hback := h signedKey (some (-1), "a", ())
  have hread : fromSlice signedKey.fields (serializeToVec signedKey.fields (some (-1), "a", ())) =
      .ok (none, "", ()) := by rfl
  rw [hread] at hback
  cases hback

end Congruent.KeyTuples
