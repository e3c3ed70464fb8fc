import Fabriq.Lib.Assoc

/-!
A store whose entries lie under the generation of a source.  An invalidation starts a new
generation, which orphans all entries of the source, or removes the entry of one slot; it leaves
a mark with the stamp it invalidates for.
-/

namespace Fabriq.Lib.Generations

open Lib.Assoc List

inductive Scope (σ κ : Type*)
  | source (s : σ)
  | slot (k : κ)
deriving DecidableEq

/-- An invalidation for `stamp`, and the first generation that it speaks for. -/
structure Mark (σ κ : Type*) where
  scope : Scope σ κ
  gen : Nat
  stamp : Nat
deriving DecidableEq

structure Cell (κ : Type*) where
  slot : κ
  gen : Nat
deriving DecidableEq

/-- A value is told by the time it stems from. -/
structure Tier (σ κ : Type*) where
  gens : List (σ × Nat)
  values : List (Cell κ × Nat)
  marks : List (Mark σ κ)
deriving DecidableEq

variable {σ κ : Type*} [DecidableEq σ] (source : κ → σ)

namespace Tier

def gen (t : Tier σ κ) (s : σ) : Nat :=
  (t.gens.lookup s).getD 0

def bump (t : Tier σ κ) (s : σ) (stamp : Nat) : Tier σ κ where
  gens := put t.gens s (t.gen s + 1)
  values := t.values
  marks := ⟨.source s, t.gen s + 1, stamp⟩ :: t.marks

variable [DecidableEq κ]

def get (t : Tier σ κ) (k : κ) (g : Nat) : Option Nat :=
  t.values.lookup ⟨k, g⟩

def store (t : Tier σ κ) (k : κ) (g v : Nat) : Tier σ κ :=
  { t with values := put t.values ⟨k, g⟩ v }

def evict (t : Tier σ κ) (k : κ) (stamp : Nat) : Tier σ κ where
  gens := t.gens
  values := Assoc.drop t.values ⟨k, t.gen (source k)⟩
  marks := ⟨.slot k, t.gen (source k), stamp⟩ :: t.marks

end Tier

def Scope.Meets (k : κ) : Scope σ κ → Prop
  | .source s => source k = s
  | .slot j => k = j

instance [DecidableEq κ] (k : κ) : (scope : Scope σ κ) → Decidable (scope.Meets source k)
  | .source s => inferInstanceAs (Decidable (source k = s))
  | .slot j => inferInstanceAs (Decidable (k = j))

/-- The value is not older than what the tier has invalidated the entry for. -/
def Respects (t : Tier σ κ) (k : κ) (g v : Nat) : Prop :=
  ∀ m ∈ t.marks, m.scope.Meets source k → m.gen ≤ g → m.stamp ≤ v

instance [DecidableEq κ] (t : Tier σ κ) (k : κ) (g v : Nat) : Decidable (Respects source t k g v) :=
  inferInstanceAs (Decidable (∀ m ∈ t.marks, _ → _ → _))

/-- The entry has been invalidated for `stamp` or something later. -/
def Owes (t : Tier σ κ) (k : κ) (g stamp : Nat) : Prop :=
  stamp = 0 ∨ ∃ m ∈ t.marks, m.scope.Meets source k ∧ m.gen ≤ g ∧ stamp ≤ m.stamp

/-- No entry and no mark is ahead of the generation of its source, and every entry is as new
as the marks require. -/
structure Sound (t : Tier σ κ) : Prop where
  entry_le : ∀ k g v, (⟨k, g⟩, v) ∈ t.values → g ≤ t.gen (source k)
  mark_le : ∀ m ∈ t.marks, ∀ k, m.scope.Meets source k → m.gen ≤ t.gen (source k)
  fresh : ∀ k g v, (⟨k, g⟩, v) ∈ t.values → Respects source t k g v

structure Grows (t t' : Tier σ κ) : Prop where
  gen_le : ∀ s, t.gen s ≤ t'.gen s
  marks : ∀ m ∈ t.marks, m ∈ t'.marks

variable {source} {t t' : Tier σ κ} {k : κ} {s : σ} {g g' v stamp : Nat}

theorem Grows.refl (t : Tier σ κ) : Grows t t := ⟨fun _ => Nat.le_refl _, fun _ => id⟩

theorem gen_bump (t : Tier σ κ) (s s' : σ) (stamp : Nat) :
    (t.bump s stamp).gen s' = if s' = s then t.gen s + 1 else t.gen s' := by
  rw [Tier.bump, Tier.gen, lookup_put]
  split
  · rfl
  · rfl

theorem grows_bump (t : Tier σ κ) (s : σ) (stamp : Nat) : Grows t (t.bump s stamp) where
  gen_le s' := by
    rw [gen_bump]
    split
    · next h =>
        rw [h]
        omega
    · exact Nat.le_refl _
  marks _ := mem_cons_of_mem _

theorem Owes.mono (h : Owes source t k g stamp) (hgrows : Grows t t') (hg : g ≤ g') :
    Owes source t' k g' stamp := by
  rcases h with hzero | ⟨m, hm, hmeets, hgen, hstamp⟩
  · exact .inl hzero
  · exact .inr ⟨m, hgrows.marks m hm, hmeets, Nat.le_trans hgen hg, hstamp⟩

omit [DecidableEq σ] in
theorem Owes.le (h : Owes source t k g stamp) (hresp : Respects source t k g v) : stamp ≤ v := by
  rcases h with rfl | ⟨m, hm, hmeets, hgen, hstamp⟩
  · exact Nat.zero_le v
  · exact Nat.le_trans hstamp (hresp m hm hmeets hgen)

theorem Sound.empty : Sound source (⟨[], [], []⟩ : Tier σ κ) where
  entry_le _ _ _ h := absurd h not_mem_nil
  mark_le _ h := absurd h not_mem_nil
  fresh _ _ _ h := absurd h not_mem_nil

theorem Sound.bump (hsound : Sound source t) (s : σ) (stamp : Nat) :
    Sound source (t.bump s stamp) where
  entry_le k g v h := Nat.le_trans (hsound.entry_le k g v h) ((grows_bump t s stamp).gen_le _)
  mark_le m hm k hmeets := by
    rcases mem_cons.mp hm with rfl | hold
    · have hk : source k = s := hmeets
      exact Nat.le_of_eq (by rw [gen_bump, if_pos hk])
    · exact Nat.le_trans (hsound.mark_le m hold k hmeets) ((grows_bump t s stamp).gen_le _)
  fresh k g v h m hm hmeets hgen := by
    have hle := hsound.entry_le k g v h
    rcases mem_cons.mp hm with rfl | hold
    · have hk : source k = s := hmeets
      have hgt : t.gen s + 1 ≤ g := hgen
      rw [hk] at hle
      omega
    · exact hsound.fresh k g v h m hold hmeets hgen

theorem Sound.owes (hsound : Sound source t) {m : Mark σ κ} (hm : m ∈ t.marks)
    (hmeets : m.scope.Meets source k) (hstamp : stamp ≤ m.stamp) :
    Owes source t k (t.gen (source k)) stamp :=
  .inr ⟨m, hm, hmeets, hsound.mark_le m hm k hmeets, hstamp⟩

variable [DecidableEq κ]

theorem grows_store (t : Tier σ κ) (k : κ) (g v : Nat) : Grows t (t.store k g v) :=
  ⟨fun _ => Nat.le_refl _, fun _ => id⟩

theorem grows_evict (t : Tier σ κ) (k : κ) (stamp : Nat) : Grows t (t.evict source k stamp) :=
  ⟨fun _ => Nat.le_refl _, fun _ => mem_cons_of_mem _⟩

theorem Owes.le_of_get (h : Owes source t k g stamp) (hsound : Sound source t)
    (hget : t.get k g = some v) : stamp ≤ v :=
  h.le (hsound.fresh k g v (mem_of_lookup hget))

theorem Sound.store (hsound : Sound source t) (hg : g ≤ t.gen (source k))
    (hresp : Respects source t k g v) : Sound source (t.store k g v) where
  entry_le k' g' v' h := by
    rcases Assoc.mem_put.mp h with heq | ⟨hold, -⟩
    · cases heq
      exact hg
    · exact hsound.entry_le k' g' v' hold
  mark_le := hsound.mark_le
  fresh k' g' v' h := by
    rcases Assoc.mem_put.mp h with heq | ⟨hold, -⟩
    · cases heq
      exact hresp
    · exact hsound.fresh k' g' v' hold

theorem Sound.evict (hsound : Sound source t) (k : κ) (stamp : Nat) :
    Sound source (t.evict source k stamp) where
  entry_le k' g v h := hsound.entry_le k' g v (Assoc.mem_drop.mp h).1
  mark_le m hm k' hmeets := by
    rcases mem_cons.mp hm with rfl | hold
    · have hk : k' = k := hmeets
      rw [hk]
      exact Nat.le_refl _
    · exact hsound.mark_le m hold k' hmeets
  fresh k' g v h m hm hmeets hgen := by
    obtain ⟨hentry, hne⟩ := Assoc.mem_drop.mp h
    rcases mem_cons.mp hm with rfl | hold
    · have hk : k' = k := hmeets
      have hge : t.gen (source k) ≤ g := hgen
      have hle := hsound.entry_le k' g v hentry
      rw [hk] at hle hne
      exact absurd (congrArg (Cell.mk k) (Nat.le_antisymm hle hge)) hne
    · exact hsound.fresh k' g v hentry m hold hmeets hgen

end Fabriq.Lib.Generations
