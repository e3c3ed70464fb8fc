import Mathlib.Data.List.Nodup

namespace Fabriq.Lib.Splice

open List

variable {α β : Type*}

/-- `copy(l[i+1:], l[i:]); l[i] = a` on a slice grown by one. -/
def spliceIn (l : List α) (i : Nat) (a : α) : List α :=
  l.take i ++ a :: l.drop i

/-- `append(l[:i], l[i+1:]...)`. -/
def spliceOut (l : List α) (i : Nat) : List α :=
  l.take i ++ l.drop (i + 1)

variable {a b : α} {i n : Nat} {l : List α}

@[simp]
theorem mem_spliceIn : b ∈ spliceIn l i a ↔ b = a ∨ b ∈ l := by
  have hl : b ∈ l ↔ b ∈ l.take i ∨ b ∈ l.drop i := by
    rw [← mem_append, take_append_drop]
  simp only [spliceIn, mem_append, mem_cons, hl]
  tauto

@[simp]
theorem length_spliceIn (l : List α) (i : Nat) (a : α) :
    (spliceIn l i a).length = l.length + 1 := by
  simp [spliceIn]
  omega

theorem length_spliceOut (hi : i < l.length) : (spliceOut l i).length = l.length - 1 := by
  simp [spliceOut]
  omega

theorem nodup_spliceIn : (spliceIn l i a).Nodup ↔ a ∉ l ∧ l.Nodup := by
  rw [spliceIn, nodup_middle, take_append_drop, nodup_cons]

theorem spliceOut_sublist (l : List α) (i : Nat) : (spliceOut l i).Sublist l := by
  conv_rhs => rw [← take_append_drop i l]
  refine (List.Sublist.refl _).append ?_
  rw [← drop_drop]
  exact drop_sublist 1 _

theorem mem_spliceOut (hi : l[i]? = some a) (hb : b ∈ l) (hne : b ≠ a) : b ∈ spliceOut l i := by
  obtain ⟨hlt, rfl⟩ := List.getElem?_eq_some_iff.mp hi
  rw [← List.take_append_drop i l, List.drop_eq_getElem_cons hlt, List.mem_append, mem_cons] at hb
  rw [spliceOut, mem_append]
  tauto

theorem take_spliceOut (hi : i < l.length) : (spliceOut l i).take i = l.take i := by
  rw [spliceOut, take_left' (by simp; omega)]

theorem drop_spliceOut (hi : i < l.length) : (spliceOut l i).drop i = l.drop (i + 1) := by
  rw [spliceOut, drop_left' (by simp; omega)]

theorem set_eq_spliceIn (a : α) (hi : i < l.length) : l.set i a = spliceIn (spliceOut l i) i a := by
  rw [set_eq_take_append_cons_drop, if_pos hi, spliceIn, take_spliceOut hi, drop_spliceOut hi]

theorem spliceOut_eq_filter [DecidableEq β] {label : α → β} (hnodup : (l.map label).Nodup)
    (hi : l[i]? = some a) :
    spliceOut l i = l.filter fun b => label b ≠ label a := by
  obtain ⟨hlt, ha⟩ := List.getElem?_eq_some_iff.mp hi
  have hsplit : l = l.take i ++ a :: l.drop (i + 1) := by
    rw [← ha, ← drop_eq_getElem_cons hlt, take_append_drop]
  have hnodup' : ((l.take i ++ a :: l.drop (i + 1)).map label).Nodup := by
    rwa [← hsplit]
  rw [map_append, map_cons, nodup_middle, nodup_cons, ← map_append, mem_map] at hnodup'
  have hkeep : (spliceOut l i).filter (fun b => label b ≠ label a) = spliceOut l i := by
    rw [filter_eq_self]
    intro b hb
    simpa using fun heq => hnodup'.1 ⟨b, hb, heq⟩
  conv_rhs => rw [hsplit]
  rw [filter_append, filter_cons_of_neg (by simp), ← filter_append]
  exact hkeep.symm

theorem map_spliceIn (f : α → β) (l : List α) (i : Nat) (a : α) :
    (spliceIn l i a).map f = spliceIn (l.map f) i (f a) := by
  simp [spliceIn]

theorem take_spliceIn (a : α) (hi : i ≤ l.length) (hin : i < n) :
    (spliceIn l i a).take n = spliceIn (l.take (n - 1)) i a := by
  have hlen : (l.take i).length = i := by simp; omega
  obtain ⟨k, rfl⟩ : ∃ k, n = i + (k + 1) := ⟨n - i - 1, by omega⟩
  rw [spliceIn, take_append, hlen, Nat.add_sub_cancel_left, take_succ_cons,
    take_of_length_le (by omega), spliceIn, Nat.add_sub_assoc (by omega),
    Nat.add_sub_cancel, take_take, Nat.min_eq_left (by omega), drop_take,
    Nat.add_sub_cancel_left]

theorem mem_take_spliceIn (hi : i ≤ l.length) (hin : i < n) : a ∈ (spliceIn l i a).take n := by
  rw [take_spliceIn a hi hin]
  exact mem_spliceIn.mpr (.inl rfl)

theorem take_spliceIn_of_le (a : α) (hi : i ≤ l.length)
    (hin : n ≤ i) : (spliceIn l i a).take n = l.take n := by
  rw [spliceIn, take_append_of_le_length (by simp; omega), take_take, Nat.min_eq_left hin]

theorem take_spliceOut_of_le (hin : n ≤ i) (hi : i < l.length) :
    (spliceOut l i).take n = l.take n := by
  rw [spliceOut, take_append_of_le_length (by simp; omega), take_take, Nat.min_eq_left hin]

theorem take_pred_spliceOut (hi : i < l.length) (hin : i < n) :
    (spliceOut l i).take (n - 1) = spliceOut (l.take n) i := by
  have hlen : (l.take i).length = i := by simp; omega
  rw [spliceOut, take_append, hlen, take_of_length_le (by omega), spliceOut,
    take_take, Nat.min_eq_left (by omega), drop_take]
  congr 2
  omega

theorem spliceIn_append {m : List α} (a : α) (hi : i ≤ l.length) :
    spliceIn (l ++ m) i a = spliceIn l i a ++ m := by
  simp [spliceIn, take_append_of_le_length hi, drop_append_of_le_length hi]

theorem spliceIn_at_end (a : α) (hi : l.length = i) : spliceIn l i a = l ++ [a] := by
  simp [spliceIn, ← hi]

end Fabriq.Lib.Splice
