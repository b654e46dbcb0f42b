import Congruent.KeyTuples
import Congruent.Redb

/-!
# Prefixes of keys (`Interfix` in `database/ser.rs`, prefix scans in `database/map.rs`)

A prefix is a tuple of strings and integers of fixed width with the directive `Interfix` at
its end, so that its bytes end with a separator.
-/

namespace Congruent.KeyPrefixes

open Store (Bytes toBeBytes utf8)
open KeyTuples

inductive LeadKind where
  | str
  | u8
  | u32
  | u64
  | i32
  | i64
  deriving DecidableEq, Repr

abbrev LeadKind.Value : LeadKind → Type
  | .str => String
  | .u8 => UInt8
  | .u32 => UInt32
  | .u64 => UInt64
  | .i32 => Int32
  | .i64 => Int64

abbrev Leads : List LeadKind → Type
  | [] => Unit
  | kind :: kinds => kind.Value × Leads kinds

inductive Element where
  | lead (kind : LeadKind) (v : kind.Value)
  | field (field : Field) (v : field.Value)
  | interfix

def leads : (kinds : List LeadKind) → Leads kinds → List Element
  | [], _ => []
  | kind :: kinds, (v, vs) => .lead kind v :: leads kinds vs

def serializeLead (ser : Serializer) : (kind : LeadKind) → kind.Value → Serializer
  | .str, v => ser.write (utf8 v)
  | .u8, v => ser.write [v]
  | .u32, v => ser.write (toBeBytes 4 v.toNat)
  | .u64, v => ser.write (toBeBytes 8 v.toNat)
  | .i32, v => ser.write (toBeBytes 4 v.toUInt32.toNat)
  | .i64, v => ser.write (toBeBytes 8 v.toUInt64.toNat)

/-- `Interfix` itself writes nothing. -/
def serializeElement (ser : Serializer) : Element → Serializer
  | .lead kind v => serializeLead ser kind v
  | .field field v => ser.serializeField field v
  | .interfix => ser

def serializeTuple (elements : List Element) : Bytes :=
  (elements.foldl (fun ser element => serializeElement ser.recordStart element) (⟨[], false⟩ : Serializer)).out

/-! ## Bytes of a tuple -/

def LeadKind.bytesOf : (kind : LeadKind) → kind.Value → Bytes
  | .str, v => utf8 v
  | .u8, v => [v]
  | .u32, v => toBeBytes 4 v.toNat
  | .u64, v => toBeBytes 8 v.toNat
  | .i32, v => toBeBytes 4 v.toUInt32.toNat
  | .i64, v => toBeBytes 8 v.toUInt64.toNat

def Element.bytesOf : Element → Bytes
  | .lead kind v => kind.bytesOf v
  | .field f v => f.bytesOf v
  | .interfix => []

theorem serializeElement_eq (ser : Serializer) (element : Element) :
    serializeElement ser element = ser.write element.bytesOf := by
  match element with
  | .lead kind v => cases kind <;> rfl
  | .field field v => exact ser.serializeField_eq field v
  | .interfix => simp [serializeElement, Element.bytesOf, Serializer.write]

theorem foldl_out (elements : List Element) (out : Bytes) :
    (elements.foldl (fun ser element => serializeElement ser.recordStart element) (⟨out, true⟩ : Serializer)).out =
      out ++ elements.flatMap fun element => SEP :: element.bytesOf := by
  induction elements generalizing out with
  | nil => simp
  | cons element elements ih =>
    rw [List.foldl_cons, serializeElement_eq]
    have hstart : (⟨out, true⟩ : Serializer).recordStart.write element.bytesOf =
        ⟨out ++ [SEP] ++ element.bytesOf, true⟩ := rfl
    rw [hstart, ih]
    simp

theorem serializeTuple_cons (element : Element) (elements : List Element) :
    serializeTuple (element :: elements) =
      element.bytesOf ++ elements.flatMap fun element => SEP :: element.bytesOf := by
  rw [serializeTuple, List.foldl_cons, serializeElement_eq]
  exact foldl_out elements element.bytesOf

/-- The bytes of the leading fields, each with the separator behind it. -/
def ended : (kinds : List LeadKind) → Leads kinds → Bytes
  | [], _ => []
  | kind :: kinds, (v, vs) => kind.bytesOf v ++ SEP :: ended kinds vs

theorem serializeTuple_leads (kinds : List LeadKind) (vs : Leads kinds) (next : Element) (more : List Element) :
    serializeTuple (leads kinds vs ++ next :: more) = ended kinds vs ++ serializeTuple (next :: more) := by
  induction kinds with
  | nil => rfl
  | cons kind kinds ih =>
    obtain ⟨v, vs⟩ := vs
    have hrest := ih vs
    rw [leads, List.cons_append, serializeTuple_cons, ended, List.append_assoc, List.cons_append, ← hrest]
    -- What follows a first element is what the tuple of the others has, behind a separator.
    cases hl : leads kinds vs ++ next :: more with
    | nil => simp at hl
    | cons second others =>
      rw [serializeTuple_cons]
      rfl

theorem serializeTuple_interfix (kinds : List LeadKind) (vs : Leads kinds) :
    serializeTuple (leads kinds vs ++ [.interfix]) = ended kinds vs := by
  rw [serializeTuple_leads, serializeTuple_cons]
  exact List.append_nil _

/-! ## Telling a field by its bytes -/

theorem append_SEP_inj {a b s t : Bytes} (ha : SEP ∉ a) (hb : SEP ∉ b) (h : a ++ SEP :: s = b ++ SEP :: t) :
    a = b ∧ s = t := by
  induction a generalizing b with
  | nil =>
    cases b with
    | nil => exact ⟨rfl, (List.cons.inj h).2⟩
    | cons y b => exact absurd ((List.cons.inj h).1 ▸ List.mem_cons_self) hb
  | cons x a ih =>
    cases b with
    | nil => exact absurd ((List.cons.inj h).1 ▸ List.mem_cons_self) ha
    | cons y b =>
      obtain ⟨hxy, hrest⟩ := List.cons.inj h
      obtain ⟨hab, hst⟩ := ih (fun hmem => ha (List.mem_cons_of_mem _ hmem))
        (fun hmem => hb (List.mem_cons_of_mem _ hmem)) hrest
      exact ⟨by rw [hxy, hab], hst⟩

theorem toBeBytes_append_inj {width n m : Nat} {s t : Bytes} (hn : n < 256 ^ width) (hm : m < 256 ^ width)
    (h : toBeBytes width n ++ s = toBeBytes width m ++ t) : n = m ∧ s = t := by
  obtain ⟨hbytes, hrest⟩ := List.append_inj h (by rw [Store.length_toBeBytes, Store.length_toBeBytes])
  exact ⟨Store.toBeBytes_inj hn hm hbytes, hrest⟩

theorem LeadKind.bytesOf_inj (kind : LeadKind) {u v : kind.Value} {s t : Bytes}
    (h : kind.bytesOf u ++ SEP :: s = kind.bytesOf v ++ SEP :: t) : u = v ∧ s = t := by
  match kind, u, v with
  | .str, u, v =>
    obtain ⟨hbytes, hrest⟩ := append_SEP_inj (SEP_notMem_utf8 u) (SEP_notMem_utf8 v) h
    have hu := Store.ofUtf8_utf8 u
    rw [show utf8 u = utf8 v from hbytes, Store.ofUtf8_utf8] at hu
    exact ⟨(Option.some.inj hu).symm, hrest⟩
  | .u8, u, v =>
    obtain ⟨hbyte, hrest⟩ := List.cons.inj h
    exact ⟨hbyte, (List.cons.inj hrest).2⟩
  | .u32, u, v =>
    obtain ⟨hn, hrest⟩ := toBeBytes_append_inj (u.toNat_lt) (v.toNat_lt) h
    exact ⟨UInt32.toNat_inj.mp hn, (List.cons.inj hrest).2⟩
  | .u64, u, v =>
    obtain ⟨hn, hrest⟩ := toBeBytes_append_inj (u.toNat_lt) (v.toNat_lt) h
    exact ⟨UInt64.toNat_inj.mp hn, (List.cons.inj hrest).2⟩
  | .i32, u, v =>
    obtain ⟨hn, hrest⟩ := toBeBytes_append_inj (u.toUInt32.toNat_lt) (v.toUInt32.toNat_lt) h
    exact ⟨congrArg Int32.ofUInt32 (UInt32.toNat_inj.mp hn), (List.cons.inj hrest).2⟩
  | .i64, u, v =>
    obtain ⟨hn, hrest⟩ := toBeBytes_append_inj (u.toUInt64.toNat_lt) (v.toUInt64.toNat_lt) h
    exact ⟨congrArg Int64.ofUInt64 (UInt64.toNat_inj.mp hn), (List.cons.inj hrest).2⟩

theorem ended_prefix_iff (kinds : List LeadKind) (us vs : Leads kinds) (rest : Bytes) :
    ended kinds us <+: ended kinds vs ++ rest ↔ us = vs := by
  constructor
  · rintro ⟨tail, h⟩
    induction kinds with
    | nil => rfl
    | cons kind kinds ih =>
      obtain ⟨u, us⟩ := us
      obtain ⟨v, vs⟩ := vs
      simp only [ended, List.append_assoc, List.cons_append] at h
      obtain ⟨rfl, hrest⟩ := kind.bytesOf_inj h
      rw [ih us vs hrest]
  · rintro rfl
    exact List.prefix_append _ _

/-- The bytes of a prefix begin the bytes of a longer tuple exactly when the leading fields
are the same. -/
theorem interfix_prefix_iff (kinds : List LeadKind) (us vs : Leads kinds) (next : Element) (more : List Element) :
    serializeTuple (leads kinds us ++ [.interfix]) <+: serializeTuple (leads kinds vs ++ next :: more) ↔
      us = vs := by
  rw [serializeTuple_interfix, serializeTuple_leads]
  exact ended_prefix_iff kinds us vs _

end Congruent.KeyPrefixes
