import Mathlib.Data.List.Nodup

namespace Fabriq.Lib.Upsert

open List

variable {α κ : Type*} [DecidableEq κ]

/-- `INSERT … ON CONFLICT (key) DO UPDATE`. -/
def upsert (key : α → κ) (change : α → α → α) (l : List α) (new : α) : List α :=
  if key new ∈ l.map key then
    l.map fun old => if key old = key new then change old new else old
  else l ++ [new]

def upsertAll (key : α → κ) (change : α → α → α) (l news : List α) : List α :=
  news.foldl (upsert key change) l

variable {key : α → κ} {change : α → α → α} {l news : List α} {new a : α} {k : κ}

theorem mem_upsert : a ∈ upsert key change l new ↔
      (a ∈ l ∧ key a ≠ key new) ∨ (∃ old ∈ l, key old = key new ∧ a = change old new) ∨
        (key new ∉ l.map key ∧ a = new) := by
  unfold upsert
  split_ifs with hmem
  · simp only [hmem, not_true_eq_false, false_and, or_false, mem_map]
    constructor
    · rintro ⟨old, hold, rfl⟩
      split_ifs with hkey
      · exact .inr ⟨old, hold, hkey, rfl⟩
      · exact .inl ⟨hold, hkey⟩
    · rintro (⟨ha, hkey⟩ | ⟨old, hold, hkey, rfl⟩)
      · exact ⟨a, ha, if_neg hkey⟩
      · exact ⟨old, hold, if_pos hkey⟩
  · have hne : ∀ old ∈ l, key old ≠ key new := fun old hold heq =>
      hmem (heq ▸ mem_map_of_mem hold)
    simp only [hmem, not_false_eq_true, true_and, mem_append, mem_singleton]
    constructor
    · rintro (ha | rfl)
      · exact .inl ⟨ha, hne a ha⟩
      · exact .inr (.inr rfl)
    · rintro (⟨ha, -⟩ | ⟨old, hold, hkey, -⟩ | rfl)
      · exact .inl ha
      · exact absurd hkey (hne old hold)
      · exact .inr rfl

section

variable (hchange : ∀ old new, key (change old new) = key old)
include hchange

theorem map_key_upsert : (upsert key change l new).map key =
      if key new ∈ l.map key then l.map key else l.map key ++ [key new] := by
  unfold upsert
  split_ifs
  · rw [map_map]
    refine map_congr_left fun old _ => ?_
    rw [Function.comp_apply]
    split_ifs
    · exact hchange old new
    · rfl
  · rw [map_append]
    rfl

theorem mem_map_key_upsert :
    k ∈ (upsert key change l new).map key ↔ k ∈ l.map key ∨ k = key new := by
  rw [map_key_upsert hchange]
  split_ifs with hmem
  · refine ⟨.inl, ?_⟩
    rintro (hk | rfl)
    · exact hk
    · exact hmem
  · rw [mem_append, mem_singleton]

theorem nodup_upsert (h : (l.map key).Nodup) : ((upsert key change l new).map key).Nodup := by
  rw [map_key_upsert hchange]
  split_ifs with hmem
  · exact h
  · refine nodup_append.mpr ⟨h, nodup_singleton _, ?_⟩
    rintro _ hold _ hnew rfl
    exact hmem (mem_singleton.mp hnew ▸ hold)

theorem nodup_upsertAll (h : (l.map key).Nodup) :
    ((upsertAll key change l news).map key).Nodup := by
  induction news generalizing l with
  | nil => exact h
  | cons new rest ih => exact ih (nodup_upsert hchange h)

theorem mem_upsertAll (hnews : (news.map key).Nodup) : a ∈ upsertAll key change l news ↔
      (a ∈ l ∧ key a ∉ news.map key) ∨
        (∃ new ∈ news, ∃ old ∈ l, key old = key new ∧ a = change old new) ∨
        ∃ new ∈ news, key new ∉ l.map key ∧ a = new := by
  induction news generalizing l with
  | nil => simp [upsertAll]
  | cons new rest ih =>
    rw [map_cons, nodup_cons] at hnews
    have hrest : ∀ m ∈ rest, key m ≠ key new := fun m hm heq =>
      hnews.1 (heq ▸ mem_map_of_mem hm)
    rw [upsertAll, foldl_cons]
    refine (ih (l := upsert key change l new) hnews.2).trans ?_
    simp only [mem_map_key_upsert hchange, mem_upsert, map_cons, mem_cons, not_or, exists_eq_or_imp]
    constructor
    · rintro (⟨⟨ha, hne⟩ | ⟨old, hold, hkey, rfl⟩ | ⟨hkey, rfl⟩, hout⟩ |
        ⟨m, hm, old, ⟨hold, hne⟩ | ⟨older, hold, hkey, rfl⟩ | ⟨-, rfl⟩, hsame, rfl⟩ |
        ⟨m, hm, ⟨hkey, -⟩, rfl⟩)
      · exact .inl ⟨ha, hne, hout⟩
      · exact .inr (.inl (.inl ⟨old, hold, hkey, rfl⟩))
      · exact .inr (.inr (.inl ⟨hkey, rfl⟩))
      · exact .inr (.inl (.inr ⟨m, hm, old, hold, hsame, rfl⟩))
      · exact absurd (hsame.symm.trans ((hchange older new).trans hkey)) (hrest m hm)
      · exact absurd hsame.symm (hrest m hm)
      · exact .inr (.inr (.inr ⟨_, hm, hkey, rfl⟩))
    · rintro (⟨ha, hne, hout⟩ | (⟨old, hold, hkey, rfl⟩ | ⟨m, hm, old, hold, hsame, rfl⟩) |
        ⟨hkey, rfl⟩ | ⟨m, hm, hkey, rfl⟩)
      · exact .inl ⟨.inl ⟨ha, hne⟩, hout⟩
      · refine Or.inl ⟨.inr (.inl ⟨old, hold, hkey, rfl⟩), ?_⟩
        rw [hchange, hkey]
        exact hnews.1
      · have hne : key old ≠ key new := hsame ▸ hrest m hm
        exact .inr (.inl ⟨m, hm, old, .inl ⟨hold, hne⟩, hsame, rfl⟩)
      · exact .inl ⟨.inr (.inr ⟨hkey, rfl⟩), hnews.1⟩
      · exact .inr (.inr ⟨_, hm, ⟨hkey, hrest _ hm⟩, rfl⟩)

end

end Fabriq.Lib.Upsert
