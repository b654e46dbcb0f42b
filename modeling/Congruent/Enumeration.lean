import Mathlib.Data.List.Nodup
import Mathlib.Data.List.Infix

/-!
# Enumerations

Distinct things numbered in the order they come up. A numbering only grows, and what has
a number keeps it.
-/

structure Enumeration (α : Type) where
  items : List α
  nodup : items.Nodup

namespace Enumeration

variable {α : Type} {t t' t'' : Enumeration α} {a b : α} {n : Nat} {l : List α}

def empty : Enumeration α := ⟨[], .nil⟩

def get? (t : Enumeration α) (n : Nat) : Option α := t.items[n]?

/-- The second numbering goes on where the first ends. -/
instance : LE (Enumeration α) := ⟨fun t t' => t.items <+: t'.items⟩

theorem le_refl (t : Enumeration α) : t ≤ t := List.prefix_rfl

theorem le_trans (h : t ≤ t') (h' : t' ≤ t'') : t ≤ t'' := List.IsPrefix.trans h h'

theorem mem_of_le (h : t ≤ t') (ha : a ∈ t.items) : a ∈ t'.items := List.IsPrefix.mem ha h

theorem get?_of_le (h : t ≤ t') (ha : t.get? n = some a) : t'.get? n = some a := by
  obtain ⟨l, hl⟩ := h
  have hlt := (List.getElem?_eq_some_iff.mp ha).1
  unfold get?
  rw [← hl, List.getElem?_append_left hlt]
  exact ha

theorem mem_of_get? (h : t.get? n = some a) : a ∈ t.items := List.mem_of_getElem? h

section
variable [DecidableEq α]

/-- The number of something that has one. -/
def short (t : Enumeration α) (a : α) : Nat := t.items.idxOf a

def short? (t : Enumeration α) (a : α) : Option Nat := if a ∈ t.items then some (t.short a) else none

def number (t : Enumeration α) (a : α) : Enumeration α :=
  if h : a ∈ t.items then t
  else ⟨t.items ++ [a], List.nodup_append.mpr ⟨t.nodup, List.nodup_singleton a, by
    intro b hb c hc
    rw [List.mem_singleton.mp hc]
    exact fun heq => h (heq ▸ hb)⟩⟩

def numberAll (t : Enumeration α) (l : List α) : Enumeration α := l.foldl number t

theorem get?_short (h : a ∈ t.items) : t.get? (t.short a) = some a := List.getElem?_idxOf h

theorem short_eq (h : t.get? n = some a) : t.short a = n := by
  obtain ⟨hlt, rfl⟩ := List.getElem?_eq_some_iff.mp h
  exact t.nodup.idxOf_getElem n hlt

theorem short_of_le (h : t ≤ t') (ha : a ∈ t.items) : t'.short a = t.short a :=
  short_eq (get?_of_le h (get?_short ha))

theorem short_inj (ha : a ∈ t.items) (hb : b ∈ t.items) (h : t.short a = t.short b) : a = b := by
  have hget := get?_short ha
  rw [h, get?_short hb, Option.some.injEq] at hget
  exact hget.symm

theorem short?_eq_some_iff : t.short? a = some n ↔ t.get? n = some a := by
  unfold short?
  split
  · rename_i ha
    rw [Option.some.injEq]
    constructor
    · rintro rfl
      exact get?_short ha
    · exact short_eq
  · rename_i ha
    constructor
    · exact nofun
    · intro h
      exact absurd (mem_of_get? h) ha

theorem short?_eq_none_iff : t.short? a = none ↔ a ∉ t.items := by
  unfold short?
  split <;> simp [*]

theorem get?_inj {m : Nat} (hn : t.get? n = some a) (hm : t.get? m = some a) : n = m :=
  (short_eq hn).symm.trans (short_eq hm)

theorem le_number (t : Enumeration α) (a : α) : t ≤ t.number a := by
  unfold number
  split
  · exact t.le_refl
  · exact List.prefix_append _ _

theorem mem_number : b ∈ (t.number a).items ↔ b ∈ t.items ∨ b = a := by
  unfold number
  split
  · rename_i ha
    constructor
    · exact .inl
    · rintro (hb | rfl)
      · exact hb
      · exact ha
  · simp

theorem get?_short_number (t : Enumeration α) (a : α) : (t.number a).get? ((t.number a).short a) = some a :=
  get?_short (mem_number.mpr (.inr rfl))

theorem le_numberAll (t : Enumeration α) (l : List α) : t ≤ t.numberAll l := by
  induction l generalizing t with
  | nil => exact t.le_refl
  | cons a l ih => exact le_trans (t.le_number a) (ih _)

theorem mem_numberAll : b ∈ (t.numberAll l).items ↔ b ∈ t.items ∨ b ∈ l := by
  induction l generalizing t with
  | nil => simp [numberAll]
  | cons a l ih =>
    have h : b ∈ ((t.number a).numberAll l).items ↔ _ := ih
    unfold numberAll at h ⊢
    rw [List.foldl_cons, h, mem_number, List.mem_cons, or_assoc]

theorem number_of_mem (h : a ∈ t.items) : t.number a = t := by
  unfold number
  rw [dif_pos h]

theorem numberAll_of_mem (h : ∀ b ∈ l, b ∈ t.items) : t.numberAll l = t := by
  induction l with
  | nil => rfl
  | cons b l ih =>
    unfold numberAll at ih ⊢
    rw [List.foldl_cons, number_of_mem (h b List.mem_cons_self), ih fun c hc => h c (List.mem_cons_of_mem b hc)]

theorem numberAll_eq_number (h : ∀ b ∈ l, b ∈ t.items ∨ b = a) (ha : a ∈ l) : t.numberAll l = t.number a := by
  induction l generalizing t with
  | nil => cases ha
  | cons b l ih =>
    unfold numberAll at ih ⊢
    rw [List.foldl_cons]
    rcases h b List.mem_cons_self with hb | rfl
    · rw [number_of_mem hb]
      rcases List.mem_cons.mp ha with rfl | ha
      · rw [number_of_mem hb]
        apply numberAll_of_mem
        intro c hc
        rcases h c (List.mem_cons_of_mem a hc) with hc | rfl
        · exact hc
        · exact hb
      · exact ih (fun c hc => h c (List.mem_cons_of_mem b hc)) ha
    · apply numberAll_of_mem
      intro c hc
      rw [mem_number]
      exact h c (List.mem_cons_of_mem b hc)

end

end Enumeration
