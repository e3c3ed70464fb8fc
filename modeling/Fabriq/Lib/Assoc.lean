import Mathlib.Data.List.Basic

namespace Fabriq.Lib.Assoc

open List Option

variable {κ α β : Type*} [DecidableEq κ]

def put (m : List (κ × α)) (k : κ) (a : α) : List (κ × α) :=
  (k, a) :: m.filter fun e => e.1 ≠ k

def drop (m : List (κ × α)) (k : κ) : List (κ × α) :=
  m.filter fun e => e.1 ≠ k

def mapValues (m : List (κ × α)) (f : κ → α → β) : List (κ × β) :=
  m.map fun e => (e.1, f e.1 e.2)

variable {m : List (κ × α)} {k i : κ} {a : α}

theorem lookup_drop : (drop m k).lookup i = if i = k then none else m.lookup i := by
  induction m with
  | nil => simp [drop]
  | cons e rest ih =>
    obtain ⟨j, b⟩ := e
    rw [drop] at ih ⊢
    by_cases hjk : j = k
    · rw [filter_cons_of_neg (by simpa using hjk), ih]
      by_cases hik : i = k
      · simp [hik]
      · have hij : (i == j) = false := by simpa [hjk] using hik
        rw [if_neg hik, if_neg hik, lookup_cons, hij]
    · rw [filter_cons_of_pos (by simpa using hjk), lookup_cons, ih, lookup_cons]
      by_cases hij : i = j
      · simp [hij, hjk]
      · have hbeq : (i == j) = false := by simpa using hij
        rw [hbeq]

theorem lookup_foldl_drop {ι : Type*} (f : ι → κ) {items : List ι} (h : ∀ j ∈ items, i ≠ f j)
    (m : List (κ × α)) : (items.foldl (fun r j => drop r (f j)) m).lookup i = m.lookup i := by
  induction items generalizing m with
  | nil => rfl
  | cons j rest ih =>
    rw [foldl_cons, ih (forall_mem_of_forall_mem_cons h), lookup_drop, if_neg (h j mem_cons_self)]

theorem lookup_put : (put m k a).lookup i = if i = k then some a else m.lookup i := by
  rw [put, lookup_cons]
  by_cases hik : i = k
  · simp [hik]
  · have hbeq : (i == k) = false := by simpa using hik
    rw [hbeq, if_neg hik]
    have hdrop : (drop m k).lookup i = _ := lookup_drop
    rw [drop, if_neg hik] at hdrop
    exact hdrop

theorem lookup_mapValues (f : κ → α → β) : (mapValues m f).lookup i = (m.lookup i).map (f i) := by
  induction m with
  | nil => rfl
  | cons e rest ih =>
    rw [mapValues, map_cons, lookup_cons, lookup_cons]
    by_cases hie : i = e.1
    · simp [hie]
    · have hbeq : (i == e.1) = false := by simpa using hie
      rw [hbeq]
      exact ih

theorem mem_of_lookup (h : m.lookup k = some a) : (k, a) ∈ m := by
  obtain ⟨before, after, rfl, -⟩ := lookup_eq_some_iff.mp h
  simp

theorem lookup_eq_some_iff (hnodup : (m.map Prod.fst).Nodup) :
    m.lookup k = some a ↔ (k, a) ∈ m := by
  refine ⟨mem_of_lookup, fun hmem => ?_⟩
  induction m with
  | nil => simp at hmem
  | cons e rest ih =>
    rw [map_cons, nodup_cons] at hnodup
    rw [lookup_cons]
    rcases mem_cons.mp hmem with rfl | hrest
    · simp
    · have hne : k ≠ e.1 := fun heq => hnodup.1 (heq ▸ List.mem_map_of_mem hrest)
      rw [beq_eq_false_iff_ne.mpr hne]
      exact ih hnodup.2 hrest

theorem isSome_lookup_iff : (m.lookup k).isSome ↔ k ∈ m.map Prod.fst := by
  rw [List.mem_map]
  constructor
  · intro h
    obtain ⟨a, ha⟩ := isSome_iff_exists.mp h
    exact ⟨(k, a), mem_of_lookup ha, rfl⟩
  · rintro ⟨e, he, rfl⟩
    by_contra hnone
    rw [Bool.not_eq_true, isSome_eq_false_iff, isNone_iff_eq_none, lookup_eq_none_iff] at hnone
    exact absurd rfl (bne_iff_ne.mp (hnone e he))

theorem lookup_graph {keys : List κ} (f : κ → α) (h : k ∈ keys) :
    (keys.map fun i => (i, f i)).lookup k = some (f k) := by
  induction keys with
  | nil => simp at h
  | cons i rest ih =>
    rw [map_cons, lookup_cons]
    by_cases hki : k = i
    · simp [hki]
    · have hbeq : (k == i) = false := by simpa using hki
      rw [hbeq]
      exact ih ((mem_cons.mp h).resolve_left hki)

theorem lookup_foldl_put {ι : Type*} [DecidableEq ι] (f : ι → κ) (j : ι) {entries : List (ι × α)}
    (hnodup : (entries.map Prod.fst).Nodup) (hinj : ∀ e ∈ entries, f e.1 = f j → e.1 = j)
    (m : List (κ × α)) :
    (entries.foldl (fun r e => put r (f e.1) e.2) m).lookup (f j) =
      (entries.lookup j).or (m.lookup (f j)) := by
  induction entries generalizing m with
  | nil => rfl
  | cons e rest ih =>
    rw [map_cons, nodup_cons] at hnodup
    rw [foldl_cons, ih hnodup.2 (fun x hx => hinj x (mem_cons_of_mem _ hx)),
      lookup_put, lookup_cons]
    by_cases hj : j = e.1
    · have hrest : rest.lookup j = none := by
        rw [← not_isSome_iff_eq_none, isSome_lookup_iff, hj]
        exact hnodup.1
      rw [hrest, if_pos (by rw [hj])]
      simp [hj]
    · have hne : ¬ f j = f e.1 := fun heq => hj (hinj e mem_cons_self heq.symm).symm
      rw [if_neg hne, beq_eq_false_iff_ne.mpr hj]

theorem mem_drop {e : κ × α} : e ∈ drop m k ↔ e ∈ m ∧ e.1 ≠ k := by
  simp [drop]

theorem mem_put {e : κ × α} : e ∈ put m k a ↔ e = (k, a) ∨ e ∈ m ∧ e.1 ≠ k := by
  simp [put]

section

variable (hnodup : (m.map Prod.fst).Nodup)
include hnodup

theorem nodup_drop : ((drop m k).map Prod.fst).Nodup :=
  (filter_sublist.map Prod.fst).nodup hnodup

theorem nodup_put : ((put m k a).map Prod.fst).Nodup := by
  rw [put, map_cons, nodup_cons]
  refine ⟨fun hmem => ?_, nodup_drop hnodup⟩
  obtain ⟨e, he, hek⟩ := List.mem_map.mp hmem
  exact (mem_drop.mp he).2 hek

omit hnodup in
theorem drop_of_not_mem (h : k ∉ m.map Prod.fst) : drop m k = m := by
  refine filter_eq_self.mpr fun e he => ?_
  simp only [decide_eq_true_eq]
  rintro rfl
  exact h (List.mem_map_of_mem he)

theorem countP_drop (h : (k, a) ∈ m) (q : κ × α → Bool) :
    m.countP q = (drop m k).countP q + if q (k, a) then 1 else 0 := by
  induction m with
  | nil => simp at h
  | cons e rest ih =>
    rw [map_cons, nodup_cons] at hnodup
    rcases mem_cons.mp h with rfl | hrest
    · rw [drop, filter_cons_of_neg (by simp), countP_cons]
      exact congrArg (fun l => List.countP q l + _) (drop_of_not_mem hnodup.1).symm
    · have hne : e.1 ≠ k := fun hek => hnodup.1 (hek ▸ List.mem_map_of_mem hrest)
      rw [drop, filter_cons_of_pos (by simpa using hne), countP_cons,
        countP_cons, ih hnodup.2 hrest, drop]
      omega

theorem countP_put (q : κ × α → Bool) :
    (put m k a).countP q + ((m.lookup k).elim 0 fun b => if q (k, b) then 1 else 0) =
      m.countP q + if q (k, a) then 1 else 0 := by
  have hput : (put m k a).countP q = (drop m k).countP q + if q (k, a) then 1 else 0 := by
    rw [put, countP_cons, drop]
  rw [hput]
  cases hlookup : m.lookup k with
  | none =>
    have hkey : k ∉ m.map Prod.fst := by
      rw [← isSome_lookup_iff, hlookup]
      simp
    rw [drop_of_not_mem hkey]
    rfl
  | some b =>
    rw [countP_drop hnodup (mem_of_lookup hlookup) q, elim_some]
    omega

end

end Fabriq.Lib.Assoc
