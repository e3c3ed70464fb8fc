import Mathlib.Data.List.Basic

namespace Fabriq.Lib.Separated

variable {α : Type*} {c : α} {a b a' b' : List α}

/-- Two readings of a list as two parts around a separator: the same, or one part of the one
reading holds the separator of the other. -/
theorem append_cons_eq_append_cons_iff : a ++ c :: b = a' ++ c :: b' ↔
      (a = a' ∧ b = b') ∨ (∃ w, a = a' ++ c :: w ∧ b' = w ++ c :: b) ∨
        ∃ w, a' = a ++ c :: w ∧ b = w ++ c :: b' := by
  constructor
  · intro h
    rcases List.append_eq_append_iff.mp h with ⟨w, ha', hb⟩ | ⟨w, ha, hb'⟩
    · cases w with
      | nil => exact .inl ⟨by simpa using ha'.symm, by simpa using hb⟩
      | cons x w =>
        obtain ⟨rfl, rfl⟩ := List.cons.inj hb
        exact .inr (.inr ⟨w, ha', rfl⟩)
    · cases w with
      | nil => exact .inl ⟨by simpa using ha, by simpa using hb'.symm⟩
      | cons x w =>
        obtain ⟨rfl, rfl⟩ := List.cons.inj hb'
        exact .inr (.inl ⟨w, ha, rfl⟩)
  · rintro (⟨rfl, rfl⟩ | ⟨w, rfl, rfl⟩ | ⟨w, rfl, rfl⟩)
    · rfl
    · simp
    · simp

section

variable {sep a b a' b' : String} {c : Char}

section

variable (hsep : sep.toList = [c])
include hsep

theorem append_sep_iff : a ++ sep ++ b = a' ++ sep ++ b' ↔
      (a = a' ∧ b = b') ∨ (∃ w, a = a' ++ sep ++ w ∧ b' = w ++ sep ++ b) ∨
        ∃ w, a' = a ++ sep ++ w ∧ b = w ++ sep ++ b' := by
  have hsplit : ∀ x y z : String, (x = y ++ sep ++ z) ↔ x.toList = y.toList ++ c :: z.toList := by
    intro x y z
    rw [← String.toList_inj, String.toList_append, String.toList_append, hsep]
    simp
  have hlist : (a ++ sep ++ b = a' ++ sep ++ b') ↔
      a.toList ++ c :: b.toList = a'.toList ++ c :: b'.toList := by
    rw [hsplit, String.toList_append, String.toList_append, hsep]
    simp
  have hex : ∀ x y z z' : String,
      (∃ w : List Char, x.toList = y.toList ++ c :: w ∧ z.toList = w ++ c :: z'.toList) ↔
        ∃ w, x = y ++ sep ++ w ∧ z = w ++ sep ++ z' := by
    intro x y z z'
    simp only [hsplit]
    constructor
    · rintro ⟨w, hx, hz⟩
      exact ⟨String.ofList w, by simpa using hx, by simpa using hz⟩
    · rintro ⟨w, hx, hz⟩
      exact ⟨w.toList, hx, hz⟩
  rw [hlist, append_cons_eq_append_cons_iff, hex, hex, String.toList_inj, String.toList_inj]

theorem append_sep_inj_right (hb : c ∉ b.toList)
    (hb' : c ∉ b'.toList) (h : a ++ sep ++ b = a' ++ sep ++ b') : a = a' ∧ b = b' := by
  rcases (append_sep_iff hsep).mp h with hparts | ⟨w, -, rfl⟩ | ⟨w, -, rfl⟩
  · exact hparts
  · exact absurd (by simp [hsep]) hb'
  · exact absurd (by simp [hsep]) hb

theorem append_sep_inj_left (ha : c ∉ a.toList)
    (ha' : c ∉ a'.toList) (h : a ++ sep ++ b = a' ++ sep ++ b') : a = a' ∧ b = b' := by
  rcases (append_sep_iff hsep).mp h with hparts | ⟨w, rfl, -⟩ | ⟨w, rfl, -⟩
  · exact hparts
  · exact absurd (by simp [hsep]) ha
  · exact absurd (by simp [hsep]) ha'

theorem split_of_notMem (ha : c ∉ a.toList) (h : a ++ sep ++ b = a' ++ sep ++ b') :
    (a' = a ∧ b' = b) ∨ ∃ w, a' = a ++ sep ++ w ∧ b = w ++ sep ++ b' := by
  rcases (append_sep_iff hsep).mp h with ⟨rfl, rfl⟩ | ⟨w, rfl, -⟩ | hlater
  · exact .inl ⟨rfl, rfl⟩
  · exact absurd (by simp [hsep]) ha
  · exact .inr hlater

theorem count_append_sep :
    (a ++ sep ++ b).toList.count c = a.toList.count c + b.toList.count c + 1 := by
  rw [String.toList_append, String.toList_append, hsep, List.count_append, List.count_append,
    List.count_singleton_self]
  omega

end

end

section

variable {n n' : Nat} {c : Char}

theorem isDigit_of_mem_toString (h : c ∈ (toString n).toList) : c.isDigit := by
  rw [Nat.toString_eq_ofList_toDigits, String.toList_ofList] at h
  exact Nat.isDigit_of_mem_toDigits (by decide) (by decide) h

theorem toString_inj : toString n = toString n' ↔ n = n' := by
  constructor
  · intro h
    rw [Nat.toString_eq_ofList_toDigits, Nat.toString_eq_ofList_toDigits,
      ← String.toList_inj, String.toList_ofList, String.toList_ofList] at h
    rw [← Nat.ofDigitChars_ten_toDigits (n := n), h, Nat.ofDigitChars_ten_toDigits]
  · rintro rfl
    rfl

end

end Fabriq.Lib.Separated
