import Mathlib.Data.List.Basic

/-!
Jobs in a list of which at most one is busy, as when an elected worker runs
them one after another.
-/

namespace Fabriq.Lib.Exclusive

open List

variable {α : Type*} {busy : α → Bool} {jobs : List α}

def OneBusy (busy : α → Bool) (jobs : List α) : Prop :=
  ∀ (i j : Nat) (a b : α), jobs[i]? = some a → jobs[j]? = some b →
    busy a = true → busy b = true → i = j

theorem oneBusy_nil : OneBusy busy [] := fun _ _ _ _ h => absurd h (by simp)

theorem OneBusy.set (h : OneBusy busy jobs) {i : Nat} {next : α}
    (hnext : busy next → ∃ old, jobs[i]? = some old ∧ busy old) :
    OneBusy busy (jobs.set i next) := by
  -- a busy entry of the new list stands where a busy entry of the old one stood
  have hold : ∀ (j : Nat) (a : α), (jobs.set i next)[j]? = some a → busy a →
      ∃ old, jobs[j]? = some old ∧ busy old := by
    intro j a hj ha
    rw [List.getElem?_set] at hj
    split at hj
    · rename_i hij
      split at hj
      · cases hj
        exact hij ▸ hnext ha
      · cases hj
    · exact ⟨a, hj, ha⟩
  intro j k a b hj hk ha hb
  obtain ⟨a', ha', hbusyA⟩ := hold j a hj ha
  obtain ⟨b', hb', hbusyB⟩ := hold k b hk hb
  exact h j k a' b' ha' hb' hbusyA hbusyB

theorem oneBusy_concat (hidle : ∀ job ∈ jobs, busy job = false) (new : α) :
    OneBusy busy (jobs ++ [new]) := by
  have hlast : ∀ (i : Nat) (a : α), (jobs ++ [new])[i]? = some a → busy a → i = jobs.length := by
    intro i a hi ha
    rw [List.getElem?_append] at hi
    split at hi
    · rw [hidle a (mem_of_getElem? hi)] at ha
      cases ha
    · have hlt := (List.getElem?_eq_some_iff.mp hi).1
      simp only [List.length_singleton] at hlt
      omega
  intro i j a b hi hj ha hb
  rw [hlast i a hi ha, hlast j b hj hb]

theorem oneBusy_set (hidle : ∀ job ∈ jobs, busy job = false) (i : Nat) (next : α) :
    OneBusy busy (jobs.set i next) := by
  have hat : ∀ (j : Nat) (a : α), (jobs.set i next)[j]? = some a → busy a → j = i := by
    intro j a hj ha
    rw [List.getElem?_set] at hj
    split at hj
    · rename_i hij
      exact hij.symm
    · rw [hidle a (mem_of_getElem? hj)] at ha
      cases ha
  intro j k a b hj hk ha hb
  rw [hat j a hj ha, hat k b hk hb]

theorem OneBusy.idle_set (h : OneBusy busy jobs) {i : Nat} {old done : α}
    (hi : jobs[i]? = some old) (hold : busy old) (hdone : busy done = false) :
    ∀ job ∈ jobs.set i done, busy job = false := by
  intro job hjob
  obtain ⟨j, hj⟩ := mem_iff_getElem?.mp hjob
  rw [List.getElem?_set] at hj
  split at hj
  · split at hj
    · cases hj
      exact hdone
    · cases hj
  · rename_i hij
    by_contra hbusy
    exact hij (h i j old job hi hj hold (by simpa using hbusy))

end Fabriq.Lib.Exclusive
