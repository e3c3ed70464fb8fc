import Mathlib.Data.List.Sort
import Fabriq.Lib.Splice

namespace Fabriq.Lib.Keyset

open Lib.Splice List

/-- A comparison that orders the keys satisfying `P` linearly.  Outside `P` it may do anything,
as one of values of mixed types does. -/
structure LinearCmpOn {κ : Type*} (cmp : κ → κ → Ordering) (P : κ → Prop) : Prop where
  swap : ∀ {a b}, P a → P b → (cmp a b).swap = cmp b a
  eq_of_eq : ∀ {a b}, P a → P b → cmp a b = .eq → a = b
  lt_trans : ∀ {a b c}, P a → P b → P c →
    cmp a b = .lt → cmp b c = .lt → cmp a c = .lt

namespace LinearCmpOn

variable {κ : Type*} {cmp : κ → κ → Ordering} {P : κ → Prop} {a b c : κ}

section

variable (h : LinearCmpOn cmp P)
include h

theorem cmp_self (ha : P a) : cmp a a = .eq := by
  have hswap := h.swap ha ha
  cases hcmp : cmp a a <;> simp_all

theorem gt_iff_lt (ha : P a) (hb : P b) : cmp a b = .gt ↔ cmp b a = .lt := by
  rw [← h.swap ha hb]
  cases cmp a b <;> simp

theorem not_lt_of_lt (ha : P a) (hb : P b) (hab : cmp a b = .lt) : cmp b a ≠ .lt := by
  rw [← h.swap ha hb, hab]
  simp

theorem lt_of_ne_of_not_lt (ha : P a) (hb : P b)
    (hne : a ≠ b) (hnot : cmp b a ≠ .lt) : cmp a b = .lt := by
  cases hcmp : cmp a b with
  | lt => rfl
  | eq => exact absurd (h.eq_of_eq ha hb hcmp) hne
  | gt => exact absurd ((h.gt_iff_lt ha hb).mp hcmp) hnot

theorem desc : LinearCmpOn (fun a b => (cmp a b).swap) P where
  swap ha hb := by rw [h.swap ha hb]
  eq_of_eq ha hb heq := h.eq_of_eq ha hb (by simpa using heq)
  lt_trans ha hb hc hab hbc := by
    simp only [Ordering.swap_eq_lt] at *
    rw [h.gt_iff_lt ha hc]
    exact h.lt_trans hc hb ha ((h.gt_iff_lt hb hc).mp hbc) ((h.gt_iff_lt ha hb).mp hab)

theorem lex {κ' : Type*} {cmp' : κ' → κ' → Ordering} {P' : κ' → Prop}
    (h' : LinearCmpOn cmp' P') : LinearCmpOn (fun p q : κ × κ' => (cmp p.1 q.1).then (cmp' p.2 q.2))
      (fun p => P p.1 ∧ P' p.2) where
  swap hp hq := by rw [Ordering.swap_then, h.swap hp.1 hq.1, h'.swap hp.2 hq.2]
  eq_of_eq hp hq heq := by
    rw [Ordering.then_eq_eq] at heq
    exact Prod.ext (h.eq_of_eq hp.1 hq.1 heq.1) (h'.eq_of_eq hp.2 hq.2 heq.2)
  lt_trans hp hq hr hpq hqr := by
    rw [Ordering.then_eq_lt] at *
    rcases hpq with hpq | ⟨hpq, hpq'⟩
    · rcases hqr with hqr | ⟨hqr, _⟩
      · exact .inl (h.lt_trans hp.1 hq.1 hr.1 hpq hqr)
      · rw [← h.eq_of_eq hq.1 hr.1 hqr]
        exact .inl hpq
    · rw [h.eq_of_eq hp.1 hq.1 hpq]
      rcases hqr with hqr | ⟨hqr, hqr'⟩
      · exact .inl hqr
      · exact .inr ⟨hqr, h'.lt_trans hp.2 hq.2 hr.2 hpq' hqr'⟩

theorem map {κ' : Type*} {cmp' : κ' → κ' → Ordering} {Q : κ' → Prop}
    (mk : κ → κ') (hmk : ∀ a b, P a → P b → cmp' (mk a) (mk b) = cmp a b)
    (hQ : ∀ q, Q q → ∃ a, P a ∧ mk a = q) : LinearCmpOn cmp' Q where
  swap {p q} hp hq := by
    obtain ⟨a, ha, rfl⟩ := hQ p hp
    obtain ⟨b, hb, rfl⟩ := hQ q hq
    rw [hmk a b ha hb, hmk b a hb ha, h.swap ha hb]
  eq_of_eq {p q} hp hq heq := by
    obtain ⟨a, ha, rfl⟩ := hQ p hp
    obtain ⟨b, hb, rfl⟩ := hQ q hq
    rw [hmk a b ha hb] at heq
    rw [h.eq_of_eq ha hb heq]
  lt_trans {p q r} hp hq hr hpq hqr := by
    obtain ⟨a, ha, rfl⟩ := hQ p hp
    obtain ⟨b, hb, rfl⟩ := hQ q hq
    obtain ⟨c, hc, rfl⟩ := hQ r hr
    rw [hmk a b ha hb] at hpq
    rw [hmk b c hb hc] at hqr
    rw [hmk a c ha hc]
    exact h.lt_trans ha hb hc hpq hqr

theorem comap {κ' : Type*} {Q : κ' → Prop} (f : κ' → κ)
    (hf : ∀ a, Q a → P (f a)) (hinj : ∀ a b, Q a → Q b → f a = f b → a = b) :
    LinearCmpOn (fun a b => cmp (f a) (f b)) Q where
  swap ha hb := h.swap (hf _ ha) (hf _ hb)
  eq_of_eq ha hb heq := hinj _ _ ha hb (h.eq_of_eq (hf _ ha) (hf _ hb) heq)
  lt_trans ha hb hc := h.lt_trans (hf _ ha) (hf _ hb) (hf _ hc)

end

theorem of_ord (α : Type*) [Ord α] [Std.TransOrd α] [Std.LawfulEqOrd α] :
    LinearCmpOn (compare : α → α → Ordering) (fun _ => True) where
  swap _ _ := Std.OrientedCmp.eq_swap.symm
  eq_of_eq _ _ := Std.LawfulEqCmp.eq_of_compare
  lt_trans _ _ _ := Std.TransCmp.lt_trans

end LinearCmpOn

variable {ρ κ : Type*}

def Sorted (cmp : κ → κ → Ordering) (key : ρ → κ) (rows : List ρ) : Prop :=
  rows.Pairwise fun a b => cmp (key a) (key b) = .lt

def sortBy (cmp : κ → κ → Ordering) (key : ρ → κ) (rows : List ρ) : List ρ :=
  rows.insertionSort fun a b => cmp (key a) (key b) ≠ .gt

variable {cmp : κ → κ → Ordering} {P : κ → Prop} {key : ρ → κ} {rows result : List ρ}

theorem mem_sortBy {row : ρ} : row ∈ sortBy cmp key rows ↔ row ∈ rows :=
  (perm_insertionSort _ rows).mem_iff

theorem sorted_orderedInsert (h : LinearCmpOn cmp P) {row : ρ} (hrow : P (key row))
    (hP : ∀ r ∈ rows, P (key r)) (hne : ∀ r ∈ rows, key row ≠ key r) (hrows : Sorted cmp key rows) :
    Sorted cmp key (rows.orderedInsert (fun a b => cmp (key a) (key b) ≠ .gt) row) := by
  induction rows with
  | nil => simp [Sorted]
  | cons r rest ih =>
    rw [Sorted, pairwise_cons] at hrows
    have hr : P (key r) := hP r mem_cons_self
    rw [orderedInsert_cons]
    split_ifs with hle
    · have hlt : cmp (key row) (key r) = .lt := by
        apply h.lt_of_ne_of_not_lt hrow hr (hne r mem_cons_self)
        rwa [Ne, ← h.gt_iff_lt hrow hr]
      refine pairwise_cons.mpr ⟨?_, pairwise_cons.mpr hrows⟩
      intro s hs
      rcases mem_cons.mp hs with rfl | hs
      · exact hlt
      · exact h.lt_trans hrow hr (hP s (mem_cons_of_mem _ hs)) hlt (hrows.1 s hs)
    · have hlt : cmp (key r) (key row) = .lt := by
        rw [← h.gt_iff_lt hrow hr]
        simpa using hle
      refine pairwise_cons.mpr ⟨?_, ?_⟩
      · intro s hs
        rcases (mem_orderedInsert _).mp hs with rfl | hs
        · exact hlt
        · exact hrows.1 s hs
      · exact ih (fun s hs => hP s (mem_cons_of_mem _ hs))
          (fun s hs => hne s (mem_cons_of_mem _ hs)) hrows.2

theorem sorted_sortBy (h : LinearCmpOn cmp P) (hP : ∀ r ∈ rows, P (key r))
    (hne : rows.Pairwise fun a b => key a ≠ key b) : Sorted cmp key (sortBy cmp key rows) := by
  induction rows with
  | nil => simp [sortBy, Sorted]
  | cons r rest ih =>
    rw [pairwise_cons] at hne
    have hrest : ∀ s ∈ sortBy cmp key rest, s ∈ rest := fun s hs => mem_sortBy.mp hs
    exact sorted_orderedInsert h (hP r mem_cons_self)
      (fun s hs => hP s (mem_cons_of_mem _ (hrest s hs)))
      (fun s hs => hne.1 s (hrest s hs))
      (ih (fun s hs => hP s (mem_cons_of_mem _ hs)) hne.2)

theorem Sorted.spliceIn {pos : Nat} {row : ρ} (hrows : Sorted cmp key rows)
    (hbefore : ∀ r ∈ rows.take pos, cmp (key r) (key row) = .lt)
    (hafter : ∀ r ∈ rows.drop pos, cmp (key row) (key r) = .lt) :
    Sorted cmp key (spliceIn rows pos row) := by
  have hsplit : Sorted cmp key (rows.take pos ++ rows.drop pos) := by
    rwa [take_append_drop]
  obtain ⟨htake, hdrop, hcross⟩ := pairwise_append.mp hsplit
  refine pairwise_append.mpr ⟨htake, pairwise_cons.mpr ⟨hafter, hdrop⟩, ?_⟩
  intro a ha b hb
  rcases mem_cons.mp hb with rfl | hb
  · exact hbefore a ha
  · exact hcross a ha b hb

theorem Sorted.eq_or_lt_last {last row : ρ} (hrows : Sorted cmp key rows)
    (hlast : rows.getLast? = some last) (hrow : row ∈ rows) :
    row = last ∨ cmp (key row) (key last) = .lt := by
  obtain ⟨init, rfl⟩ := List.getLast?_eq_some_iff.mp hlast
  rcases mem_append.mp hrow with hrow | hrow
  · exact .inr ((pairwise_append.mp hrows).2.2 row hrow last mem_cons_self)
  · exact .inl (mem_singleton.mp hrow)

/-- A sorted list of rows of a sorted result is a prefix of it when the rows it
leaves out all come later. -/
theorem Sorted.isPrefix (h : LinearCmpOn cmp P) (hP : ∀ r ∈ result, P (key r))
    (hrows : Sorted cmp key rows) (hresult : Sorted cmp key result) (hsub : ∀ r ∈ rows, r ∈ result)
    (hlater : ∀ x ∈ result, x ∉ rows → ∀ y ∈ rows, cmp (key y) (key x) = .lt) :
    rows <+: result := by
  induction rows generalizing result with
  | nil => exact nil_prefix
  | cons y ys ih =>
    obtain ⟨hyrest, hys⟩ := pairwise_cons.mp hrows
    have hPy : P (key y) := hP y (hsub y mem_cons_self)
    have hirrefl : cmp (key y) (key y) ≠ .lt := by simp [h.cmp_self hPy]
    cases result with
    | nil => exact absurd (hsub y mem_cons_self) not_mem_nil
    | cons z zs =>
      obtain ⟨hzrest, hzs⟩ := pairwise_cons.mp hresult
      have hPz : P (key z) := hP z mem_cons_self
      have hnot : cmp (key y) (key z) ≠ .lt := by
        intro hlt
        rcases mem_cons.mp (hsub y mem_cons_self) with rfl | hy
        · exact hirrefl hlt
        · exact h.not_lt_of_lt hPz hPy (hzrest y hy) hlt
      have hzy : z = y := by
        by_cases hz : z ∈ y :: ys
        · rcases mem_cons.mp hz with hz | hz
          · exact hz
          · exact absurd (hyrest z hz) hnot
        · exact absurd (hlater z mem_cons_self hz y mem_cons_self) hnot
      subst hzy
      refine (prefix_cons_inj z).mpr (ih (fun r hr => hP r (mem_cons_of_mem _ hr)) hys hzs ?_ ?_)
      · intro r hr
        rcases mem_cons.mp (hsub r (mem_cons_of_mem _ hr)) with rfl | hmem
        · exact absurd (hyrest r hr) hirrefl
        · exact hmem
      · intro x hx hxys w hw
        refine hlater x (mem_cons_of_mem _ hx) ?_ w (mem_cons_of_mem _ hw)
        rw [mem_cons]
        rintro (rfl | hmem)
        · exact hirrefl (hzrest x hx)
        · exact hxys hmem

end Fabriq.Lib.Keyset
