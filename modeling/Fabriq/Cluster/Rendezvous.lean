import Mathlib.Data.List.MinMax
import Mathlib.Data.Prod.Lex
import Mathlib.Data.String.Basic

namespace Fabriq.Cluster.Rendezvous

open List

def partitions : Nat := 256

def fnv1a (bytes : List UInt8) : UInt64 :=
  bytes.foldl (fun h b => (h ^^^ b.toUInt64) * 1099511628211) 14695981039346656037

def utf8 (s : String) : List UInt8 :=
  s.toUTF8.data.toList

def putUint64 (n : UInt64) : List UInt8 :=
  (List.range 8).map fun i => (n >>> (8 * i.toUInt64)).toUInt8

def partitionOf (tenantId entity : String) : Nat :=
  (fnv1a (utf8 tenantId ++ [0] ++ utf8 entity)).toNat % partitions

def weight (shardId : String) (p : Nat) : UInt64 :=
  fnv1a (utf8 shardId ++ [0] ++ putUint64 p.toUInt64)

section

variable (weight : String → Nat → UInt64) (p : Nat)

/-- One round of the loop over the live shards: the best id so far and its weight. -/
def keepBest (best : String × UInt64) (s : String) : String × UInt64 :=
  if best.1 = "" ∨ best.2 < weight s p ∨ (weight s p = best.2 ∧ s < best.1) then
    (s, weight s p)
  else best

def owner (live : List String) : String :=
  (live.foldl (keepBest weight p) ("", 0)).1

def owns (self : String) (live : List String) : Bool :=
  owner weight p live == self

/-- What the loop maximises: the weight, and among equal weights the smaller id. -/
def rank (s : String) : ℕ ×ₗ Stringᵒᵈ :=
  toLex ((weight s p).toNat, OrderDual.toDual s)

end

variable {weight : String → Nat → UInt64} {p : Nat} {live other : List String} {s t : String}

theorem rank_injective : Function.Injective (rank weight p) := by
  intro s t h
  exact congrArg (fun key => OrderDual.ofDual (ofLex key).2) h

theorem rank_lt_rank : rank weight p t < rank weight p s ↔
      weight t p < weight s p ∨ (weight s p = weight t p ∧ s < t) := by
  rw [rank, rank, Prod.Lex.toLex_lt_toLex, UInt64.lt_iff_toNat_lt, ← UInt64.toNat_inj]
  exact or_congr_right (and_congr_left fun _ => eq_comm)

theorem keepBest_held (ht : t ≠ "") : keepBest weight p (t, weight t p) s =
      if rank weight p t < rank weight p s then (s, weight s p) else (t, weight t p) := by
  simp only [keepBest, ht, false_or, rank_lt_rank]

section

variable (hids : "" ∉ live)
include hids

theorem foldl_keepBest : live.foldl (keepBest weight p) ("", 0) =
      match live.argmax (rank weight p) with
      | none => ("", 0)
      | some s => (s, weight s p) := by
  induction live using List.reverseRecOn with
  | nil => rfl
  | append_singleton init s ih =>
    rw [mem_append, not_or] at hids
    rw [foldl_append, ih hids.1, argmax_concat]
    cases hinit : init.argmax (rank weight p) with
    | none => simp [keepBest]
    | some t =>
      have ht : t ≠ "" := by
        rintro rfl
        exact hids.1 (argmax_mem hinit)
      simp only [foldl_cons, foldl_nil, keepBest_held ht]
      split_ifs <;> rfl

theorem owner_eq_iff (hne : live ≠ []) :
    owner weight p live = s ↔ s ∈ live ∧ ∀ t ∈ live, rank weight p t ≤ rank weight p s := by
  obtain ⟨best, hbest⟩ := Option.ne_none_iff_exists'.mp
    (mt argmax_eq_none.mp hne : live.argmax (rank weight p) ≠ none)
  have howner : owner weight p live = best := by
    rw [owner, foldl_keepBest hids, hbest]
  have hle : ∀ t ∈ live, rank weight p t ≤ rank weight p best :=
    fun t ht => le_of_mem_argmax ht hbest
  rw [howner]
  constructor
  · rintro rfl
    exact ⟨argmax_mem hbest, hle⟩
  · rintro ⟨hs, hmax⟩
    exact rank_injective ((hmax best (argmax_mem hbest)).antisymm (hle s hs))

theorem owner_mem (hne : live ≠ []) : owner weight p live ∈ live :=
  ((owner_eq_iff hids hne).mp rfl).1

theorem rank_le_owner (hs : s ∈ live) : rank weight p s ≤ rank weight p (owner weight p live) :=
  ((owner_eq_iff hids (ne_nil_of_mem hs)).mp rfl).2 s hs

theorem owner_eq_owner (hids' : "" ∉ other)
    (h : owner weight p live ∈ other) (h' : owner weight p other ∈ live) :
    owner weight p other = owner weight p live :=
  rank_injective ((rank_le_owner hids h').antisymm (rank_le_owner hids' h))

end

/-- Some live shard owns a partition, which one depends on the set of live shards alone, and a
shard that comes or goes moves only what it owns. -/
structure Stable (weight : String → Nat → UInt64) (p : Nat) (live : List String) : Prop where
  member : owner weight p live ∈ live
  unordered : ∀ other, (∀ s, s ∈ other ↔ s ∈ live) →
    owner weight p other = owner weight p live
  removed : ∀ fewer s, s ≠ owner weight p live → (∀ t, t ∈ fewer ↔ t ∈ live ∧ t ≠ s) →
    owner weight p fewer = owner weight p live
  added : ∀ more s, s ≠ "" → (∀ t, t ∈ more ↔ t = s ∨ t ∈ live) →
    owner weight p more = owner weight p live ∨ owner weight p more = s
  exclusive : ∀ other s t, (∀ s, s ∈ other ↔ s ∈ live) → s ≠ t →
    ¬ (owns weight p s live = true ∧ owns weight p t other = true)

/-- The empty id stands for no owner: the loop forgets it when another shard follows
and may return it when it comes last. -/
theorem emptyId_not_stable : ¬ Stable Rendezvous.weight 2 ["", "a"] := by
  intro h
  have heq := h.unordered ["a", ""] (by simp [or_comm])
  revert heq
  decide

theorem stable_of_ids (weight : String → Nat → UInt64) (p : Nat) {live : List String}
    (hids : "" ∉ live) (hne : live ≠ []) : Stable weight p live := by
  have hmem : owner weight p live ∈ live := owner_mem hids hne
  have hset : ∀ other, (∀ s, s ∈ other ↔ s ∈ live) →
      owner weight p other = owner weight p live := by
    intro other hother
    have hids' : "" ∉ other := by rwa [hother]
    have hne' : other ≠ [] := ne_nil_of_mem ((hother _).mpr hmem)
    exact owner_eq_owner hids hids' ((hother _).mpr hmem) ((hother _).mp (owner_mem hids' hne'))
  refine ⟨hmem, hset, ?_, ?_, ?_⟩
  · intro fewer s hs hfewer
    have hids' : "" ∉ fewer := fun h => hids ((hfewer _).mp h).1
    have hkept : owner weight p live ∈ fewer := (hfewer _).mpr ⟨hmem, Ne.symm hs⟩
    exact owner_eq_owner hids hids' hkept ((hfewer _).mp (owner_mem hids' (ne_nil_of_mem hkept))).1
  · intro more s hs hmore
    have hids' : "" ∉ more := by
      rw [hmore]
      exact fun h => h.elim (Ne.symm hs) hids
    have hkept : owner weight p live ∈ more := (hmore _).mpr (.inr hmem)
    rcases (hmore _).mp (owner_mem hids' (ne_nil_of_mem hkept)) with hnew | hold
    · exact .inr hnew
    · exact .inl (owner_eq_owner hids hids' hkept hold)
  · rintro other s t hother hst ⟨hs, ht⟩
    rw [owns, beq_iff_eq] at hs ht
    exact hst (hs.symm.trans ((hset other hother).symm.trans ht))

theorem stable_threeShards : "" ∉ ["shard-a", "shard-b", "shard-c"] ∧
      Stable Rendezvous.weight 3 ["shard-a", "shard-b", "shard-c"] :=
  ⟨by decide, stable_of_ids _ 3 (by decide) (by decide)⟩

end Fabriq.Cluster.Rendezvous
