import Mathlib.Order.Lattice

namespace Fabriq.Lib.Gated

variable {α ν : Type*} [LinearOrder ν] {version : α → ν}

/-- A register that takes a write unless it holds one of a higher version. -/
def offer (version : α → ν) (held : Option α) (write : α) : α :=
  match held with
  | none => write
  | some old => if version write < version old then old else write

/-- The register holds one of the writes it was offered, and none of a higher version was
offered. -/
structure Holds (version : α → ν) (offered : List α) (held : Option α) : Prop where
  mem : ∀ a, held = some a → a ∈ offered
  le : ∀ a, held = some a → ∀ b ∈ offered, version b ≤ version a
  none : held = none → offered = []

theorem holds_nil : Holds version ([] : List α) none := by
  constructor <;> simp

variable {held : Option α} {offered : List α}

theorem Holds.append {write result : α}
    (h : Holds version offered held) (hmem : held = some result ∨ result = write)
    (hheld : ∀ old, held = some old → version old ≤ version result)
    (hwrite : version write ≤ version result) :
    Holds version (offered ++ [write]) (some result) := by
  refine ⟨fun a ha => ?_, fun a ha b hb => ?_, fun hnone => absurd hnone (by simp)⟩
  · cases ha
    rcases hmem with hmem | rfl
    · exact List.mem_append_left _ (h.mem _ hmem)
    · exact List.mem_append_right _ (List.mem_singleton_self _)
  · cases ha
    rcases List.mem_append.mp hb with hb | hb
    · cases hold : held with
      | none =>
        rw [h.none hold] at hb
        simp at hb
      | some old => exact (h.le old hold b hb).trans (hheld old hold)
    · rw [List.mem_singleton.mp hb]
      exact hwrite

theorem Holds.offer (h : Holds version offered held)
    (write : α) : Holds version (offered ++ [write]) (some (offer version held write)) := by
  cases held with
  | none => exact h.append (.inr rfl) (fun _ hold => absurd hold (by simp)) le_rfl
  | some old =>
    simp only [Gated.offer]
    split_ifs with hlt
    · exact h.append (.inl rfl) (fun _ hold => (Option.some.inj hold ▸ le_rfl)) hlt.le
    · exact h.append (.inr rfl) (fun _ hold => Option.some.inj hold ▸ not_lt.mp hlt) le_rfl

/-- A register that takes a write of a higher version only. -/
def offerNewer (version : α → ν) (held : Option α) (write : α) : α :=
  match held with
  | none => write
  | some old => if version old < version write then write else old

theorem offerNewer_cases (version : α → ν) (held : Option α) (write : α) :
    held = some (offerNewer version held write) ∨ offerNewer version held write = write := by
  cases held with
  | none => exact .inr rfl
  | some old =>
    simp only [offerNewer]
    split_ifs <;> simp

theorem le_offerNewer (version : α → ν) (held : Option α) (write : α) :
    version write ≤ version (offerNewer version held write) := by
  cases held with
  | none => exact le_rfl
  | some old =>
    simp only [offerNewer]
    split_ifs with hlt
    · exact le_rfl
    · exact not_lt.mp hlt

theorem held_le_offerNewer {old : α} (h : held = some old) (write : α) :
    version old ≤ version (offerNewer version held write) := by
  subst h
  simp only [offerNewer]
  split_ifs with hlt
  · exact hlt.le
  · exact le_rfl

theorem offerNewer_offerNewer (held : Option α) (write : α) :
    offerNewer version (some (offerNewer version held write)) write =
      offerNewer version held write :=
  if_neg (not_lt.mpr (le_offerNewer version held write))

theorem Holds.offerNewer (h : Holds version offered held) (write : α) :
    Holds version (offered ++ [write]) (some (offerNewer version held write)) :=
  h.append (offerNewer_cases version held write) (fun _ hold => held_le_offerNewer hold write)
    (le_offerNewer version held write)

/-- Writes of distinct versions leave the highest one, in whatever order and however often
they are offered. -/
theorem Holds.eq_some (h : Holds version offered held) (top : α) (htop : top ∈ offered)
    (hmax : ∀ a ∈ offered, version a ≤ version top)
    (hunique : ∀ a ∈ offered, version a = version top → a = top) : held = some top := by
  cases held with
  | none =>
    rw [h.none rfl] at htop
    simp at htop
  | some a =>
    have hversion : version a = version top :=
      le_antisymm (hmax a (h.mem a rfl)) (h.le a rfl top htop)
    rw [hunique a (h.mem a rfl) hversion]

end Fabriq.Lib.Gated
