import Mathlib.Data.List.Dedup
import Mathlib.Order.Basic

namespace Fabriq.Lib.KeyedLog

open List

variable {α κ ν : Type*} [DecidableEq κ] {key : α → κ}

def history (key : α → κ) (log : List α) (k : κ) : List α :=
  log.filter fun e => key e = k

def latest (key : α → κ) (log : List α) (k : κ) : Option α :=
  (history key log k).getLast?

def latestAll (key : α → κ) (log : List α) : List α :=
  (log.map key).dedup.filterMap (latest key log)

variable {log old : List α} {k : κ} {e x : α}

theorem mem_history : x ∈ history key log k ↔ x ∈ log ∧ key x = k := by
  simp [history]

theorem history_append_self :
    history key (log ++ [e]) (key e) = history key log (key e) ++ [e] := by
  simp [history]

theorem history_append_of_ne (h : k ≠ key e) : history key (log ++ [e]) k = history key log k := by
  simp [history, Ne.symm h]

theorem latest_append_self : latest key (log ++ [e]) (key e) = some e := by
  rw [latest, history_append_self, getLast?_concat]

theorem latest_append_of_ne (h : k ≠ key e) : latest key (log ++ [e]) k = latest key log k := by
  rw [latest, history_append_of_ne h, latest]

theorem latest_append_of_some (h : latest key log k = some e) :
    latest key (old ++ log) k = some e := by
  rw [latest, history, filter_append, getLast?_append]
  exact congrArg (Option.or · _) h

theorem latest_cons (h : latest key (x :: log) k = some e) :
    latest key log k = some e ∨ latest key log k = none ∧ e = x ∧ key x = k := by
  by_cases hk : key x = k
  · rw [latest, history, filter_cons_of_pos (by simpa using hk), getLast?_cons] at h
    cases hlog : latest key log k with
    | none =>
      rw [latest, history] at hlog
      rw [hlog] at h
      exact .inr ⟨rfl, (Option.some.inj h).symm, hk⟩
    | some last =>
      rw [latest, history] at hlog
      rw [hlog] at h
      exact .inl h
  · rw [latest, history, filter_cons_of_neg (by simpa using hk)] at h
    exact .inl h

theorem mem_of_latest (h : latest key log k = some e) : e ∈ history key log k := mem_of_getLast? h

theorem latest_eq_getElem? {i : Nat} (hi : i + 1 = (history key log k).length) :
    latest key log k = (history key log k)[i]? := by
  rw [latest, getLast?_eq_getElem?, ← hi, Nat.add_sub_cancel]

theorem latest_eq_none : latest key log k = none ↔ history key log k = [] :=
  getLast?_eq_none_iff

theorem history_mono (h : old <+: log) : history key old k <+: history key log k := h.filter _

theorem key_of_latest (h : latest key log k = some e) : key e = k :=
  (mem_history.mp (mem_of_latest h)).2

theorem mem_latestAll : e ∈ latestAll key log ↔ latest key log (key e) = some e := by
  simp only [latestAll, mem_filterMap, mem_dedup, mem_map]
  constructor
  · rintro ⟨k, -, hk⟩
    rw [key_of_latest hk]
    exact hk
  · intro h
    exact ⟨key e, ⟨e, (mem_history.mp (mem_of_latest h)).1, rfl⟩, h⟩

theorem nodup_latestAll : ((latestAll key log).map key).Nodup := by
  have hsub : ∀ ks : List κ, ((ks.filterMap (latest key log)).map key).Sublist ks := by
    intro ks
    induction ks with
    | nil => exact .slnil
    | cons k rest ih =>
      cases hk : latest key log k with
      | none =>
        rw [filterMap_cons_none hk]
        exact ih.cons k
      | some e =>
        rw [filterMap_cons_some hk, map_cons, key_of_latest hk]
        exact ih.cons_cons k
  exact (nodup_dedup _).sublist (hsub _)

def Ordered (key : α → κ) [LT ν] (version : α → ν) (log : List α) : Prop :=
  ∀ k, (history key log k).Pairwise fun a b => version a < version b

section

variable [Preorder ν] {version : α → ν}

theorem ordered_nil : Ordered key version ([] : List α) := fun _ => .nil

section

variable (h : Ordered key version log)
include h

theorem Ordered.le_latest (hlast : latest key log k = some e)
    (hx : x ∈ history key log k) : x = e ∨ version x < version e := by
  obtain ⟨before, hbefore⟩ := getLast?_eq_some_iff.mp hlast
  have hpair := h k
  rw [hbefore] at hx hpair
  rcases mem_append.mp hx with hx | hx
  · exact .inr ((pairwise_append.mp hpair).2.2 x hx e (by simp))
  · exact .inl (mem_singleton.mp hx)

theorem Ordered.eq_latest (hlast : latest key log k = some e)
    (hx : x ∈ history key log k) (hle : version e ≤ version x) : x = e :=
  (h.le_latest hlast hx).resolve_right fun hlt => (hlt.trans_le hle).false

theorem Ordered.exists_latest (hx : x ∈ history key log k) :
    ∃ last, latest key log k = some last ∧ version x ≤ version last := by
  cases hlast : latest key log k with
  | none =>
    rw [latest_eq_none.mp hlast] at hx
    simp at hx
  | some last =>
    refine ⟨last, rfl, ?_⟩
    rcases h.le_latest hlast hx with rfl | hlt
    · exact le_rfl
    · exact hlt.le

theorem Ordered.append (hnew : ∀ last, latest key log
    (key e) = some last → version last < version e) :
    Ordered key version (log ++ [e]) := by
  intro k
  rcases eq_or_ne k (key e) with rfl | hk
  · rw [history_append_self, pairwise_append]
    refine ⟨h _, pairwise_singleton _ _, ?_⟩
    intro x hx y hy
    rw [mem_singleton.mp hy]
    obtain ⟨last, hlast, hle⟩ := h.exists_latest hx
    exact hle.trans_lt (hnew last hlast)
  · rw [history_append_of_ne hk]
    exact h k

theorem Ordered.latest_between {mid : List α} (hold : old <+: mid) (hmid : mid <+: log)
    (he : latest key old k = some e)
    (hlast : latest key log k = some e) : latest key mid k = some e := by
  have hordered : Ordered key version mid := fun k => (h k).sublist (history_mono hmid).sublist
  have hmem : e ∈ history key mid k := (history_mono hold).subset (mem_of_latest he)
  obtain ⟨x, hx, hle⟩ := hordered.exists_latest hmem
  have hxlog : x ∈ history key log k := (history_mono hmid).subset (mem_of_latest hx)
  rw [hx, h.eq_latest hlast hxlog hle]

end

end

def Numbered (key : α → κ) (version : α → Int) (log : List α) : Prop :=
  ∀ k, (history key log k).map version =
    (range (history key log k).length).map fun i : Nat => (i : Int) + 1

variable {version : α → Int}

theorem numbered_nil : Numbered key version ([] : List α) := fun _ => rfl

section

variable (h : Numbered key version log)
include h

theorem Numbered.append (hnext : version e = (history key log (key e)).length + 1) :
    Numbered key version (log ++ [e]) := by
  intro k
  rcases eq_or_ne k (key e) with rfl | hk
  · rw [history_append_self, map_append, h, length_append, length_singleton,
      range_succ, map_append, map_singleton, map_singleton, hnext]
  · rw [history_append_of_ne hk]
    exact h k

theorem Numbered.exists_first (hx : x ∈ history key log k) :
    ∃ first ∈ history key log k, version first = 1 := by
  have hmem : (1 : Int) ∈ (history key log k).map version := by
    rw [h k]
    refine mem_map.mpr ⟨0, mem_range.mpr ?_, rfl⟩
    exact length_pos_of_mem hx
  exact mem_map.mp hmem

theorem Numbered.le_length (hx : x ∈ history key log k) :
    version x ≤ (history key log k).length := by
  have hmem : version x ∈ (history key log k).map version := mem_map_of_mem hx
  rw [h k] at hmem
  obtain ⟨i, hi, heq⟩ := mem_map.mp hmem
  have hlt := mem_range.mp hi
  omega

theorem Numbered.inj {y : α} (hx : x ∈ history key log k)
    (hy : y ∈ history key log k) (heq : version x = version y) : x = y := by
  refine inj_on_of_nodup_map ?_ hx hy heq
  rw [h k]
  exact nodup_range.map fun i j (hij : (i : Int) + 1 = j + 1) => by omega

end

end Fabriq.Lib.KeyedLog
