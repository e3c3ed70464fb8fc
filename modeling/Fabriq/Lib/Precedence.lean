import Mathlib.Data.List.Basic

namespace Fabriq.Lib.Precedence

open List

variable {α : Type*}

/-- The entries of a list can be dealt with in turn: whatever of `all` comes before an entry
is done when its turn comes. -/
def Ready (before : α → α → Prop) (all : List α) : List α → List α → Prop
  | _, [] => True
  | done, x :: rest => (∀ y ∈ all, before y x → y ∈ done) ∧ Ready before all (x :: done) rest

variable {before : α → α → Prop} {all later done more l m : List α} {x y : α}

theorem Ready.mono (h : Ready before all done l) (hsub : done ⊆ more) :
    Ready before all more l := by
  induction l generalizing done more with
  | nil => trivial
  | cons x rest ih =>
    exact ⟨fun y hy hbefore => hsub (h.1 y hy hbefore), ih h.2 (cons_subset_cons x hsub)⟩

theorem ready_append :
    Ready before all done (l ++ m) ↔ Ready before all done l ∧ Ready before all (l ++ done) m := by
  induction l generalizing done with
  | nil => exact ⟨fun h => ⟨trivial, h⟩, And.right⟩
  | cons x rest ih =>
    have hsame : ∀ z, z ∈ rest ++ x :: done ↔ z ∈ x :: rest ++ done := by
      intro z
      simp only [mem_append, mem_cons]
      tauto
    rw [cons_append, Ready, Ready, ih, and_assoc]
    refine and_congr_right' (and_congr_right' ⟨fun h => ?_, fun h => ?_⟩)
    · exact h.mono fun z => (hsame z).mp
    · exact h.mono fun z => (hsame z).mpr

theorem Ready.extend (h : Ready before all done l)
    (hnew : ∀ y ∈ later, y ∈ all ∨ ∀ x ∈ l, ¬ before y x) : Ready before later done l := by
  induction l generalizing done with
  | nil => trivial
  | cons x rest ih =>
    refine ⟨fun y hy hbefore => ?_, ih h.2 fun y hy => ?_⟩
    · refine h.1 y ((hnew y hy).resolve_right fun hnone => ?_) hbefore
      exact hnone x mem_cons_self hbefore
    · exact (hnew y hy).imp_right fun hnone z hz => hnone z (mem_cons_of_mem x hz)

theorem Ready.remove (h : Ready before all done (l ++ x :: m))
    (hx : x ∈ done ∨ ∀ z ∈ m, ¬ before x z) : Ready before all done (l ++ m) := by
  obtain ⟨hl, -, hm⟩ := ready_append.mp h
  refine ready_append.mpr ⟨hl, ?_⟩
  rcases hx with hdone | hfree
  · refine hm.mono fun z hz => ?_
    rcases mem_cons.mp hz with rfl | hz
    · exact mem_append_right l hdone
    · exact hz
  · clear h hl
    induction m generalizing l with
    | nil => trivial
    | cons z rest ih =>
      refine ⟨fun y hy hbefore => ?_, ?_⟩
      · refine (mem_cons.mp (hm.1 y hy hbefore)).resolve_left ?_
        rintro rfl
        exact hfree z mem_cons_self hbefore
      · have hrest : Ready before all (x :: ((z :: l) ++ done)) rest := hm.2.mono fun w hw => by
            simp only [cons_append, mem_cons] at hw ⊢
            tauto
        exact ih hrest fun w hw => hfree w (mem_cons_of_mem z hw)

theorem ready_of_pairwise (hirrefl : ∀ x ∈ l, ¬ before x x)
    (hpair : l.Pairwise fun a b => ¬ before b a) (hall : ∀ y ∈ all, y ∈ done ∨ y ∈ l) :
    Ready before all done l := by
  induction l generalizing done with
  | nil => trivial
  | cons x rest ih =>
    obtain ⟨hfirst, hrest⟩ := pairwise_cons.mp hpair
    refine ⟨fun y hy hbefore => (hall y hy).resolve_right fun hmem => ?_,
      ih (fun z hz => hirrefl z (mem_cons_of_mem x hz)) hrest fun y hy => ?_⟩
    · rcases mem_cons.mp hmem with rfl | hmem
      · exact hirrefl y mem_cons_self hbefore
      · exact hfirst y hmem hbefore
    · rcases hall y hy with hdone | hmem
      · exact .inl (mem_cons_of_mem x hdone)
      · rcases mem_cons.mp hmem with rfl | hmem
        · exact .inl mem_cons_self
        · exact .inr hmem

theorem Ready.exists_earlier (h : Ready before all done (l ++ x :: m)) (hy : y ∈ all)
    (hbefore : before y x) : y ∈ l ∨ y ∈ done :=
  mem_append.mp ((ready_append.mp h).2.1 y hy hbefore)

end Fabriq.Lib.Precedence
