import Fabriq.Lib.Keyset
import Fabriq.Lib.Search

namespace Fabriq.Lib.PrefixWindow

open Lib.Keyset Lib.Search Lib.Splice List

variable {ρ κ : Type*}

def sortsAfter (cmp : κ → κ → Ordering) (key : ρ → κ) (rows : List ρ) (cur : κ) (i : Nat) : Bool :=
  match rows[i]? with
  | some r => cmp (key r) cur == .gt
  | none => false

/-- Where a key belongs in ordered rows: the first row strictly after it. -/
def insertPos (cmp : κ → κ → Ordering) (key : ρ → κ) (rows : List ρ) (cur : κ) : Nat :=
  search rows.length (sortsAfter cmp key rows cur)

/-- The rows are the first ones of the ordered members of `R`, and all of them when
`complete` is set. -/
structure PrefixOf (cmp : κ → κ → Ordering) (key : ρ → κ) (R : ρ → Prop)
    (rows : List ρ) (complete : Bool) : Prop where
  sorted : Sorted cmp key rows
  held : ∀ r ∈ rows, R r
  later : ∀ x, R x → x ∉ rows → ∀ y ∈ rows, cmp (key y) (key x) = .lt
  exhausted : complete = true → ∀ x, R x → x ∈ rows

variable {cmp : κ → κ → Ordering} {P : κ → Prop} {key : ρ → κ} {R R' : ρ → Prop}
  {rows rest : List ρ} {complete : Bool} {row : ρ} {cur : κ}

theorem sortsAfter_eq_true {i : Nat} (hi : i < rows.length) :
    sortsAfter cmp key rows cur i ↔ cmp (key rows[i]) cur = .gt := by
  simp [sortsAfter, hi]

theorem insertPos_le : insertPos cmp key rows cur ≤ rows.length := search_le _ _

/-- The insert position cuts sorted rows into those before the key and those after
it. -/
theorem insertPos_spec (h : LinearCmpOn cmp P) (hP : ∀ r ∈ rows, P (key r)) (hcur : P cur)
    (hne : ∀ r ∈ rows, key r ≠ cur) (hrows : Sorted cmp key rows) :
    (∀ r ∈ rows.take (insertPos cmp key rows cur), cmp (key r) cur = .lt) ∧
      ∀ r ∈ rows.drop (insertPos cmp key rows cur), cmp cur (key r) = .lt := by
  have hmono : ∀ a b, a ≤ b → b < rows.length →
      sortsAfter cmp key rows cur a → sortsAfter cmp key rows cur b := by
    intro a b hab hb ha
    rcases Nat.eq_or_lt_of_le hab with rfl | hlt
    · exact ha
    · have halen : a < rows.length := Nat.lt_trans hlt hb
      rw [sortsAfter_eq_true hb]
      rw [sortsAfter_eq_true halen] at ha
      have hPa : P (key rows[a]) := hP _ (getElem_mem _)
      have hPb : P (key rows[b]) := hP _ (getElem_mem _)
      rw [h.gt_iff_lt hPb hcur]
      exact h.lt_trans hcur hPa hPb ((h.gt_iff_lt hPa hcur).mp ha)
        (pairwise_iff_getElem.mp hrows a b _ hb hlt)
  obtain ⟨hlow, hhigh⟩ := search_spec hmono
  constructor
  · intro r hr
    obtain ⟨i, hi, rfl⟩ := mem_take_iff_getElem.mp hr
    have hlt : i < search rows.length (sortsAfter cmp key rows cur) :=
      Nat.lt_of_lt_of_le hi (Nat.min_le_left _ _)
    have hmem : rows[i] ∈ rows := getElem_mem _
    have hnot : cmp (key rows[i]) cur ≠ .gt := by
      rw [Ne, ← sortsAfter_eq_true, hlow i hlt]
      simp
    exact h.lt_of_ne_of_not_lt (hP _ hmem) hcur (hne _ hmem)
      (fun hlt => hnot ((h.gt_iff_lt (hP _ hmem) hcur).mpr hlt))
  · intro r hr
    obtain ⟨i, hi, rfl⟩ := mem_drop_iff_getElem.mp hr
    have hidx : insertPos cmp key rows cur + i < rows.length := by omega
    have htrue := hhigh (insertPos cmp key rows cur + i) (Nat.le_add_right _ _) hidx
    rw [sortsAfter_eq_true hidx] at htrue
    exact (h.gt_iff_lt (hP _ (getElem_mem _)) hcur).mp htrue

namespace PrefixOf

theorem of_sorted (hrows : Sorted cmp key rows) (hmem : ∀ x, x ∈ rows ↔ R x) :
    PrefixOf cmp key R rows true where
  sorted := hrows
  held r hr := (hmem r).mp hr
  later x hx hnot := absurd ((hmem x).mpr hx) hnot
  exhausted _ x hx := (hmem x).mpr hx

theorem isPrefix (h : LinearCmpOn cmp P) {result : List ρ}
    (hrows : PrefixOf cmp key R rows complete) (hresult : Sorted cmp key result)
    (hmem : ∀ x, x ∈ result ↔ R x) (hP : ∀ x, R x → P (key x)) : rows <+: result := by
  refine hrows.sorted.isPrefix h (fun r hr => hP r ((hmem r).mp hr)) hresult ?_ ?_
  · intro r hr
    exact (hmem r).mpr (hrows.held r hr)
  · intro x hx hnot
    exact hrows.later x ((hmem x).mp hx) hnot

theorem eq_of_complete (h : LinearCmpOn cmp P) {result : List ρ}
    (hrows : PrefixOf cmp key R rows true) (hresult : Sorted cmp key result)
    (hmem : ∀ x, x ∈ result ↔ R x) (hP : ∀ x, R x → P (key x)) : rows = result := by
  have hback : result <+: rows := by
    refine hresult.isPrefix h (fun r hr => hP r (hrows.held r hr)) hrows.sorted ?_ ?_
    · intro r hr
      exact hrows.exhausted rfl r ((hmem r).mp hr)
    · intro x hx hnot
      exact absurd ((hmem x).mpr (hrows.held x hx)) hnot
  exact (hrows.isPrefix h hresult hmem hP).eq_of_length_le hback.length_le

theorem nodup (h : LinearCmpOn cmp P) (hP : ∀ x, R x → P (key x))
    (hrows : PrefixOf cmp key R rows complete) : rows.Nodup := by
  refine hrows.sorted.imp_of_mem ?_
  rintro a b ha hb hlt rfl
  simp [h.cmp_self (hP a (hrows.held a ha))] at hlt

section

variable (hrows : PrefixOf cmp key R rows complete)
include hrows

theorem filter (keep : ρ → Bool)
    (hR' : ∀ x, R' x ↔ R x ∧ keep x) : PrefixOf cmp key R' (rows.filter keep) complete where
  sorted := hrows.sorted.filter _
  held r hr := by
    obtain ⟨hr, hkeep⟩ := mem_filter.mp hr
    exact (hR' r).mpr ⟨hrows.held r hr, hkeep⟩
  later x hx hnot y hy := by
    obtain ⟨hxR, hkeep⟩ := (hR' x).mp hx
    refine hrows.later x hxR ?_ y (mem_filter.mp hy).1
    intro hmem
    exact hnot (mem_filter.mpr ⟨hmem, hkeep⟩)
  exhausted hc x hx := by
    obtain ⟨hxR, hkeep⟩ := (hR' x).mp hx
    exact mem_filter.mpr ⟨hrows.exhausted hc x hxR, hkeep⟩

omit hrows in
/-- A new member may be spliced in at its place unless that is the end of the rows and a member
not held comes before it. -/
theorem spliceIn (h : LinearCmpOn cmp P) (hP : ∀ x, R' x → P (key x))
    (hrows : PrefixOf cmp key R rows complete) (hR' : ∀ x, R' x ↔ x = row ∨ R x) {pos : Nat}
    (hbefore : ∀ r ∈ rows.take pos, cmp (key r) (key row) = .lt)
    (hafter : ∀ r ∈ rows.drop pos, cmp (key row) (key r) = .lt)
    (hgap : pos < rows.length ∨ ∀ x, R x → x ∉ rows → cmp (key row) (key x) = .lt) :
    PrefixOf cmp key R' (spliceIn rows pos row) complete where
  sorted := hrows.sorted.spliceIn hbefore hafter
  held r hr := by
    rw [hR']
    rcases mem_spliceIn.mp hr with rfl | hr
    · exact .inl rfl
    · exact .inr (hrows.held r hr)
  later x hx hnot y hy := by
    have hnot' : x ≠ row ∧ x ∉ rows := by simpa [not_or] using hnot
    have hxR : R x := ((hR' x).mp hx).resolve_left hnot'.1
    rcases mem_spliceIn.mp hy with rfl | hy
    · rcases hgap with hpos | hgap
      · have hlast : rows[pos] ∈ rows.drop pos := by
          rw [drop_eq_getElem_cons hpos]
          exact mem_cons_self
        have hmem : rows[pos] ∈ rows := getElem_mem hpos
        exact h.lt_trans (hP _ ((hR' _).mpr (.inl rfl)))
          (hP _ ((hR' _).mpr (.inr (hrows.held _ hmem)))) (hP x hx)
          (hafter _ hlast) (hrows.later x hxR hnot'.2 _ hmem)
      · exact hgap x hxR hnot'.2
    · exact hrows.later x hxR hnot'.2 y hy
  exhausted hc x hx := by
    rw [mem_spliceIn]
    rcases (hR' x).mp hx with rfl | hx
    · exact .inl rfl
    · exact .inr (hrows.exhausted hc x hx)

theorem skip (hR' : ∀ x, R' x ↔ x = row ∨ R x) (hbefore : ∀ r ∈ rows, cmp (key r) (key row) = .lt) :
    PrefixOf cmp key R' rows false where
  sorted := hrows.sorted
  held r hr := (hR' r).mpr (.inr (hrows.held r hr))
  later x hx hnot y hy := by
    rcases (hR' x).mp hx with rfl | hx
    · exact hbefore y hy
    · exact hrows.later x hx hnot y hy
  exhausted hc := by simp at hc

theorem take (k : Nat) : PrefixOf cmp key R (rows.take k) false where
  sorted := hrows.sorted.sublist (take_sublist k rows)
  held r hr := hrows.held r (mem_of_mem_take hr)
  later x hx hnot y hy := by
    by_cases hmem : x ∈ rows
    · have hsplit : Sorted cmp key (rows.take k ++ rows.drop k) := by
        rw [take_append_drop]
        exact hrows.sorted
      have hdrop : x ∈ rows.drop k := by
        rw [← take_append_drop k rows, mem_append] at hmem
        exact hmem.resolve_left hnot
      exact (pairwise_append.mp hsplit).2.2 y hy x hdrop
    · exact hrows.later x hx hmem y (mem_of_mem_take hy)
  exhausted hc := by simp at hc

theorem append (hrest : Sorted cmp key rest) (hmem : ∀ x, x ∈ rest ↔ R x ∧ x ∉ rows) (limit : Nat) :
    PrefixOf cmp key R (rows ++ rest.take limit)
      (complete || decide ((rest.take limit).length < limit)) where
  sorted := by
    refine pairwise_append.mpr ⟨hrows.sorted, hrest.sublist (take_sublist _ _), ?_⟩
    intro y hy x hx
    obtain ⟨hxR, hnot⟩ := (hmem x).mp (mem_of_mem_take hx)
    exact hrows.later x hxR hnot y hy
  held r hr := by
    rcases mem_append.mp hr with hr | hr
    · exact hrows.held r hr
    · exact ((hmem r).mp (mem_of_mem_take hr)).1
  later x hx hnot y hy := by
    rw [mem_append, not_or] at hnot
    rcases mem_append.mp hy with hy | hy
    · exact hrows.later x hx hnot.1 y hy
    · have hsplit : Sorted cmp key (rest.take limit ++ rest.drop limit) := by
        rwa [take_append_drop]
      have hdrop : x ∈ rest.drop limit := by
        have hxrest := (hmem x).mpr ⟨hx, hnot.1⟩
        rw [← take_append_drop limit rest, mem_append] at hxrest
        exact hxrest.resolve_left hnot.2
      exact (pairwise_append.mp hsplit).2.2 y hy x hdrop
  exhausted hc x hx := by
    rw [mem_append]
    by_cases hheld : x ∈ rows
    · exact .inl hheld
    · rw [Bool.or_eq_true, decide_eq_true_eq] at hc
      rcases hc with hc | hshort
      · exact .inl (hrows.exhausted hc x hx)
      · have hall : rest.take limit = rest := by
          rw [length_take] at hshort
          exact take_of_length_le (by omega)
        rw [hall]
        exact .inr ((hmem x).mpr ⟨hx, hheld⟩)

end

end PrefixOf

end Fabriq.Lib.PrefixWindow
