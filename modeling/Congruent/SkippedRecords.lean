import Congruent.KeyTuples

/-!
# Skipped records (`Ignore` in `database/de.rs`)

A tuple can be read with the directive `Ignore` in the place of a field. The directive takes
the bytes up to the next separator, whatever the type of the field is.
-/

namespace Congruent.SkippedRecords

open Store (Bytes toBeBytes)
open KeyTuples

/-- `record_ignore` inside a sequence. -/
def recordIgnore (de : Deserializer) : Deserializer := de.recordNext.2

/-- The values of all fields but the one in position `i`. -/
abbrev Remaining : (fields : List Field) → (i : Nat) → Type
  | [], _ => Unit
  | _ :: fields, 0 => Tuple fields
  | field :: fields, i + 1 => field.Value × Remaining fields i

/-- `visit_seq` of a tuple with `Ignore` in position `i`; the directive has no value. -/
def visitIgnoring (de : Deserializer) (len : Nat) :
    (fields : List Field) → (i : Nat) → Except DeErr (Remaining fields i)
  | [], _ => .ok ()
  | _ :: fields, 0 =>
    if de.buf.length ≤ de.pos then .error (.invalidLength len)
    else (recordIgnore de.recordStart).visitSeq (len + 1) fields
  | field :: fields, i + 1 =>
    match de.nextElement field with
    | .error e => .error e
    | .ok none => .error (.invalidLength len)
    | .ok (some (v, de)) => match visitIgnoring de (len + 1) fields i with
      | .ok vs => .ok (v, vs)
      | .error e => .error e

def fromSliceIgnoring (fields : List Field) (i : Nat) (buf : Bytes) : Except DeErr (Remaining fields i) :=
  visitIgnoring ⟨buf, 0, 0⟩ 0 fields i

def remaining : (fields : List Field) → (i : Nat) → Tuple fields → Remaining fields i
  | [], _, _ => ()
  | _ :: _, 0, (_, vs) => vs
  | _ :: fields, i + 1, (v, vs) => (v, remaining fields i vs)

/-- Where the whole tuple can be read, reading with `Ignore` in position `i` has the same
remaining fields. -/
def Skips (t : TupleType) (v : Tuple t.fields) (i : Fin t.fields.length) : Prop :=
  ∀ ws, fromSlice t.fields (serializeToVec t.fields v) = .ok ws →
    fromSliceIgnoring t.fields i (serializeToVec t.fields v) = .ok (remaining t.fields i ws)

/-- The fields before position `i` are read back as they are, and the bytes of field `i` have
no separator, or it is read back as an absent value. -/
def Delimited : (fields : List Field) → (i : Nat) → Tuple fields → Prop
  | [], _, _ => True
  | field :: _, 0, (v, _) => SEP ∉ field.bytesOf v ∨ field.TakenForNone v
  | field :: fields, i + 1, (v, vs) => ¬ field.TakenForNone v ∧ Delimited fields i vs

/-! ## Reading from a position -/

section
variable {de de' : Deserializer} {field : Field} {fields : List Field}

theorem visitSeq_ok_iff {vs : Tuple (field :: fields)} {len : Nat} :
    de.visitSeq len (field :: fields) = .ok vs ↔
      ∃ rest, de.nextElement field = .ok (some (vs.1, rest)) ∧ rest.visitSeq (len + 1) fields = .ok vs.2 := by
  obtain ⟨v, vs⟩ := vs
  rw [Deserializer.visitSeq]
  constructor
  · intro h
    split at h
    · cases h
    · cases h
    · rename_i w rest hnext
      split at h
      · rename_i ws hws
        cases h
        exact ⟨rest, hnext, hws⟩
      · cases h
  · rintro ⟨rest, hnext, hrest⟩
    simp only [hnext, hrest]

theorem nextElement_some {w : field.Value} {rest : Deserializer} (h : de.nextElement field = .ok (some (w, rest))) :
    de.pos < de.buf.length ∧ de.recordStart.deserializeField field = .ok (w, rest) := by
  unfold Deserializer.nextElement at h
  split at h
  · cases h
  · rename_i hpos
    refine ⟨Nat.lt_of_not_le hpos, ?_⟩
    split at h
    · rename_i hfield
      cases h
      exact hfield
    · cases h

theorem visitIgnoring_zero {len : Nat} (hpos : de.pos < de.buf.length) : visitIgnoring de len (field :: fields) 0 =
    (recordIgnore de.recordStart).visitSeq (len + 1) fields :=
  if_neg (Nat.not_le_of_lt hpos)

theorem skips_zero {len : Nat}
    (hstop : ∀ w rest, de.nextElement field = .ok (some (w, rest)) → rest = recordIgnore de.recordStart)
    {ws : Tuple (field :: fields)} (h : de.visitSeq len (field :: fields) = .ok ws) :
    visitIgnoring de len (field :: fields) 0 = .ok ws.2 := by
  obtain ⟨rest, hnext, hrest⟩ := visitSeq_ok_iff.mp h
  rw [visitIgnoring_zero (nextElement_some hnext).1, ← hstop ws.1 rest hnext]
  exact hrest

theorem skips_succ {len i : Nat} {ws : Tuple (field :: fields)}
    (hrest : ∀ rest, de.nextElement field = .ok (some (ws.1, rest)) → rest.visitSeq (len + 1) fields = .ok ws.2 →
      visitIgnoring rest (len + 1) fields i = .ok (remaining fields i ws.2))
    (h : de.visitSeq len (field :: fields) = .ok ws) :
    visitIgnoring de len (field :: fields) (i + 1) = .ok (remaining (field :: fields) (i + 1) ws) := by
  obtain ⟨rest, hnext, hread⟩ := visitSeq_ok_iff.mp h
  simp only [visitIgnoring, hnext, hrest rest hnext hread]
  rfl

theorem skips_last {i : Nat} (hlast : i + 1 = fields.length) {len : Nat} {ws : Tuple fields}
    (h : de.visitSeq len fields = .ok ws) : visitIgnoring de len fields i = .ok (remaining fields i ws) := by
  induction fields generalizing de i len with
  | nil => cases hlast
  | cons field fields ih =>
    cases i with
    | succ i => exact skips_succ (fun rest _ hread => ih (Nat.succ.inj hlast) hread) h
    | zero =>
      obtain rfl : fields = [] := List.eq_nil_of_length_eq_zero (Nat.succ.inj hlast).symm
      obtain ⟨rest, hnext, -⟩ := visitSeq_ok_iff.mp h
      rw [visitIgnoring_zero (nextElement_some hnext).1]
      rfl

end

/-! ## Where `Ignore` stops -/

section
variable {de : Deserializer} {field : Field} {fields : List Field}

/-- Bytes without a separator are skipped up to their end, and so is nothing at a value that
looks like the absent one. -/
theorem deserializeField_stop {v : field.Value} {tail : Bytes} (h : de.buf.drop de.pos = field.bytesOf v ++ tail)
    (htail : ∀ b ∈ tail.head?, b = SEP) (hlast : field.kind = .bytes → tail = [])
    (hv : SEP ∉ field.bytesOf v ∨ field.TakenForNone v) :
    ∃ w, de.deserializeField field = .ok (w, recordIgnore de) := by
  by_cases htaken : field.TakenForNone v
  · obtain ⟨hhead, w, -, hread⟩ := Deserializer.deserializeField_taken h htail htaken
    have hnone : de.recordNext = ([], de.incPos 0) :=
      Deserializer.recordNext_ok rfl List.not_mem_nil (by rwa [List.head?_drop])
    exact ⟨w, by rw [hread, recordIgnore, hnone]; rfl⟩
  · have hread := Deserializer.deserializeField_ok de h htail hlast htaken
    exact ⟨v, by rw [hread, recordIgnore, Deserializer.recordNext_ok h (hv.resolve_right htaken) htail]⟩

theorem skips_cons {i len : Nat} {v : field.Value} {vs : Tuple fields}
    (h : de.buf.drop de.recordStart.pos = field.bytesOf v ++ bytesAfter fields vs)
    (hlast : ∀ f ∈ (field :: fields).dropLast, f.kind ≠ .bytes) (hi : Delimited (field :: fields) i (v, vs))
    (hrest : ∀ i rest len ws, rest.buf.drop rest.pos = bytesAfter fields vs → 0 < rest.recs →
      Delimited fields i vs →
      rest.visitSeq len fields = .ok ws → visitIgnoring rest len fields i = .ok (remaining fields i ws))
    {ws : Tuple (field :: fields)} (hread : de.visitSeq len (field :: fields) = .ok ws) :
    visitIgnoring de len (field :: fields) i = .ok (remaining (field :: fields) i ws) := by
  have htail := head?_bytesAfter fields vs
  have hbytes := fun hkind => bytesAfter_of_bytes hlast hkind vs
  cases i with
  | zero =>
    refine skips_zero (fun w rest hnext => ?_) hread
    obtain ⟨w', hstop⟩ := deserializeField_stop h htail hbytes hi
    exact (Prod.mk.inj (Except.ok.inj ((nextElement_some hnext).2.symm.trans hstop))).2
  | succ i =>
    refine skips_succ (fun rest hnext hws => ?_) hread
    have hfield := Deserializer.deserializeField_ok de.recordStart h htail hbytes hi.1
    generalize hstop : de.recordStart.incPos (field.bytesOf v).length = stop at hfield
    obtain rfl : rest = stop := (Prod.mk.inj (Except.ok.inj ((nextElement_some hnext).2.symm.trans hfield))).2
    refine hrest i rest (len + 1) ws.2 ?_ ?_ hi.2 hws
    · rw [← hstop]
      show de.buf.drop (de.recordStart.pos + (field.bytesOf v).length) = _
      rw [← List.drop_drop, h, List.drop_left' rfl]
    · rw [← hstop]
      exact Nat.succ_pos _

theorem skips_after {i len : Nat} {vs ws : Tuple fields} (h : de.buf.drop de.pos = bytesAfter fields vs)
    (hstart : 0 < de.recs) (hlast : ∀ f ∈ fields.dropLast, f.kind ≠ .bytes) (hi : Delimited fields i vs)
    (hread : de.visitSeq len fields = .ok ws) : visitIgnoring de len fields i = .ok (remaining fields i ws) := by
  induction fields generalizing de i len with
  | nil => cases i <;> rfl
  | cons field fields ih =>
    obtain ⟨v, vs⟩ := vs
    have hrest : de.buf.drop de.recordStart.pos = field.bytesOf v ++ bytesAfter fields vs := by
      have hstarted : de.recordStart.pos = de.pos + 1 := by
        simp only [Deserializer.recordStart, if_pos (Or.inr hstart : de.pos ≠ 0 ∨ de.recs > 0)]
      rw [hstarted, ← List.drop_drop, h]
      rfl
    exact skips_cons hrest hlast hi
      (fun _ _ _ _ hdrop hrecs hi' => ih hdrop hrecs (bytes_last_tail hlast) hi') hread

end

def countedKey : TupleType := ⟨[.plain .u64, .plain .str], by decide, by decide, by decide⟩

end Congruent.SkippedRecords
