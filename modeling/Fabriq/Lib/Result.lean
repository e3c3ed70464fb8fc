import Mathlib.Data.List.Basic

namespace Fabriq.Lib.Result

open List Option

variable {ε α β σ : Type}

theorem bind_eq_ok {m : Except ε α} {f : α → Except ε β} {b : β} :
    (m >>= f) = .ok b ↔ ∃ a, m = .ok a ∧ f a = .ok b := by
  cases m <;> simp [bind, Except.bind]

theorem foldlM_invariant {P : σ → Prop} {f : σ → α → Except ε σ} {l : List α} {s t : σ}
    (hstep : ∀ s a t, a ∈ l → P s → f s a = .ok t → P t) (h : P s)
    (hrun : l.foldlM f s = .ok t) : P t := by
  induction l generalizing s with
  | nil =>
    cases hrun
    exact h
  | cons a rest ih =>
    rw [foldlM_cons] at hrun
    obtain ⟨u, hfirst, hrest⟩ := bind_eq_ok.mp hrun
    refine ih (fun s b t hb => ?_) (hstep s a u mem_cons_self h hfirst) hrest
    exact hstep s b t (mem_cons_of_mem _ hb)

theorem exists_of_foldlM {f : σ → α → Except ε σ} {l : List α} {s t : σ} {a : α}
    (hrun : l.foldlM f s = .ok t) (ha : a ∈ l) : ∃ u v, f u a = .ok v := by
  induction l generalizing s with
  | nil => simp at ha
  | cons b rest ih =>
    rw [foldlM_cons] at hrun
    obtain ⟨u, hfirst, hrest⟩ := bind_eq_ok.mp hrun
    rcases mem_cons.mp ha with rfl | ha
    · exact ⟨s, u, hfirst⟩
    · exact ih hrest ha

theorem exists_of_mapM {f : α → Except ε β} {l : List α} {results : List β} {b : β}
    (h : l.mapM f = .ok results) (hb : b ∈ results) : ∃ a ∈ l, f a = .ok b := by
  induction l generalizing results with
  | nil =>
    cases h
    simp at hb
  | cons a rest ih =>
    rw [mapM_cons] at h
    obtain ⟨first, hfirst, h⟩ := bind_eq_ok.mp h
    obtain ⟨others, hothers, h⟩ := bind_eq_ok.mp h
    cases h
    rcases mem_cons.mp hb with rfl | hb
    · exact ⟨a, mem_cons_self, hfirst⟩
    · obtain ⟨x, hx, heq⟩ := ih hothers hb
      exact ⟨x, mem_cons_of_mem _ hx, heq⟩

theorem mapM_eq_ok {f : α → Except ε α} {l : List α} (h : ∀ a ∈ l, f a = .ok a) :
    l.mapM f = .ok l := by
  induction l with
  | nil => rfl
  | cons a rest ih =>
    rw [mapM_cons, h a mem_cons_self, ih fun b hb => h b (mem_cons_of_mem _ hb)]
    rfl

section

variable {α β γ : Type*} {f : α → Option β} {l : List α} {results : List β}

theorem mapM_eq_some {g : α → β} (hf : ∀ a ∈ l, f a = some (g a)) :
    l.mapM f = some (l.map g) := by
  induction l with
  | nil => rfl
  | cons a rest ih =>
    rw [mapM_cons, hf a mem_cons_self, ih fun b hb => hf b (mem_cons_of_mem a hb)]
    rfl

theorem map_of_mapM {g : α → γ} {h : β → γ} (hf : ∀ a b, f a = some b → h b = g a)
    (hmap : l.mapM f = some results) : results.map h = l.map g := by
  induction l generalizing results with
  | nil =>
    cases hmap
    rfl
  | cons a rest ih =>
    rw [mapM_cons] at hmap
    obtain ⟨b, hb, hmap⟩ := bind_eq_some_iff.mp hmap
    obtain ⟨others, hothers, hmap⟩ := bind_eq_some_iff.mp hmap
    cases hmap
    rw [map_cons, map_cons, hf a b hb, ih hothers]

theorem mem_of_mapM (hmap : l.mapM f = some results) {b : β} :
    b ∈ results ↔ ∃ a ∈ l, f a = some b := by
  induction l generalizing results with
  | nil =>
    cases hmap
    simp
  | cons a rest ih =>
    rw [mapM_cons] at hmap
    obtain ⟨first, hfirst, hmap⟩ := bind_eq_some_iff.mp hmap
    obtain ⟨others, hothers, hmap⟩ := bind_eq_some_iff.mp hmap
    cases hmap
    rw [mem_cons, ih hothers]
    simp only [mem_cons, exists_eq_or_imp, hfirst, some.injEq]
    exact or_congr_left eq_comm

theorem mapM_eq_none {a : α} (ha : a ∈ l)
    (hf : f a = none) : l.mapM f = none := by
  induction l with
  | nil => simp at ha
  | cons b rest ih =>
    rw [mapM_cons]
    rcases mem_cons.mp ha with rfl | hrest
    · rw [hf]
      rfl
    · rw [ih hrest]
      cases f b <;> rfl

theorem exists_mapM
    (hall : ∀ a ∈ l, ∃ b, f a = some b) : ∃ results, l.mapM f = some results := by
  induction l with
  | nil => exact ⟨[], rfl⟩
  | cons a rest ih =>
    obtain ⟨b, hb⟩ := hall a mem_cons_self
    obtain ⟨results, hresults⟩ := ih fun a ha => hall a (mem_cons_of_mem _ ha)
    refine ⟨b :: results, ?_⟩
    rw [mapM_cons, hb, hresults]
    rfl

theorem map_filterMap_sublist {g : β → γ} {h : α → γ}
    (hf : ∀ a b, f a = some b → g b = h a) :
    ((l.filterMap f).map g).Sublist (l.map h) := by
  induction l with
  | nil => exact .slnil
  | cons a rest ih =>
    cases ha : f a with
    | none =>
      rw [filterMap_cons_none ha]
      exact ih.cons _
    | some b =>
      rw [filterMap_cons_some ha, map_cons, hf a b ha]
      exact ih.cons_cons _

end

end Fabriq.Lib.Result
