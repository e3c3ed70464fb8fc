import Fabriq.Lib.Assoc
import Mathlib.Data.List.TakeDrop

/-!
The cache of decoded history segments: a list in the order of use and a map into it.
-/

namespace Fabriq.Document.SegmentCache

open Function Lib Lib.Assoc List

/-- The distinct keys of a history of uses, both with the latest in front. -/
def recent : List String → List String
  | [] => []
  | k :: older => k :: (recent older).erase k

variable {k : String} {used newer older l : List String} {n : Nat}

theorem mem_recent : k ∈ recent used ↔ k ∈ used := by
  induction used with
  | nil => rfl
  | cons j older ih => by_cases h : k = j <;> simp [recent, mem_erase_of_ne, ih, h]

theorem recent_append (hk : k ∉ newer) :
    ∃ rest, recent (newer ++ k :: older) = recent newer ++ k :: rest := by
  induction newer with
  | nil => exact ⟨_, rfl⟩
  | cons j newer ih =>
    rw [mem_cons, not_or] at hk
    obtain ⟨rest, hrest⟩ := ih hk.2
    rw [cons_append, recent, recent, hrest]
    by_cases hj : j ∈ recent newer
    · exact ⟨rest, by rw [erase_append_left _ hj]; rfl⟩
    · refine ⟨rest.erase j, ?_⟩
      rw [erase_append_right _ hj, erase_of_not_mem hj, erase_cons_tail (by simpa using hk.1)]
      rfl

theorem mem_take_recent : k ∈ (recent used).take n ↔
      k ∈ used ∧ (recent (used.takeWhile (· != k))).length < n := by
  by_cases hk : k ∈ used
  · rw [mem_take_iff_idxOf_lt (mem_recent.mpr hk), and_iff_right hk]
    obtain ⟨newer, older, rfl, hnot⟩ := eq_append_cons_of_mem hk
    have hne : ∀ j ∈ newer, j != k := fun j hj => bne_iff_ne.mpr (ne_of_mem_of_not_mem hj hnot)
    obtain ⟨rest, hrest⟩ := @recent_append k newer older hnot
    rw [takeWhile_append_of_pos hne, takeWhile_cons_of_neg (by simp), append_nil, hrest,
      idxOf_append_of_notMem (mt mem_recent.mp hnot), idxOf_cons_self, Nat.add_zero]
  · exact iff_of_false (fun h => hk (mem_recent.mp (mem_of_mem_take h))) fun h => hk h.1

theorem take_erase : (l.erase k).take n = ((l.take (n + 1)).erase k).take n := by
  induction l generalizing n with
  | nil => simp
  | cons j l ih =>
    by_cases hj : j = k
    · simp [hj, take_take]
    · cases n <;> simp [erase_cons_tail, hj, ih]

theorem take_recent_cons :
    (recent (k :: used)).take n = (k :: ((recent used).take n).erase k).take n := by
  cases n with
  | zero => rfl
  | succ n => rw [recent, take_succ_cons, take_succ_cons, take_erase]

/-- An element is named by its key: `put` adds one only for a key that the map lacks. -/
structure Cache (Val : Type) where
  max : Nat
  ll : List (String × Val)
  item : String → Bool

variable {Val : Type} {c : Cache Val} {stored : String → Option Val} {v : Val}

def newSegmentCache (maxEntries : Int) : Cache Val :=
  ⟨if maxEntries ≤ 0 then 128 else maxEntries.toNat, [], fun _ => false⟩

namespace Cache

def moveToFront (c : Cache Val) (key : String) (v : Val) : Cache Val :=
  { c with ll := Assoc.put c.ll key v }

def get (c : Cache Val) (key : String) : Option Val × Cache Val :=
  match c.item key, c.ll.lookup key with
  | true, some v => (some v, c.moveToFront key v)
  | _, _ => (none, c)

/-- The loop at the end of `put`. -/
def evict (c : Cache Val) : Cache Val :=
  if c.max < c.ll.length then
    match c.ll.getLast? with
    | none => c
    | some back =>
      evict { c with ll := c.ll.dropLast, item := update c.item back.1 false }
  else c
termination_by c.ll.length
decreasing_by simp; omega

def pushFront (c : Cache Val) (key : String) (v : Val) : Cache Val :=
  { c with ll := (key, v) :: c.ll, item := update c.item key true }

def put (c : Cache Val) (key : String) (v : Val) : Cache Val :=
  if c.item key then c.moveToFront key v else (c.pushFront key v).evict

abbrev keys (c : Cache Val) : List String :=
  c.ll.map Prod.fst

/-- The list has each key once, the map has the same keys, and the values are the stored ones. -/
structure Holds (c : Cache Val) (stored : String → Option Val) : Prop where
  nodup : c.keys.Nodup
  item : ∀ k, c.item k ↔ k ∈ c.keys
  vals : ∀ e ∈ c.ll, stored e.1 = some e.2

section

variable (h : c.Holds stored)
include h

theorem Holds.keys_moveToFront : (c.moveToFront k v).keys = k :: c.keys.erase k := by
  simp [keys, moveToFront, Assoc.put, h.nodup.erase_eq_filter, filter_map, comp_def, bne, BEq.beq]

theorem Holds.front {item : String → Bool}
    (hitem : ∀ j, item j ↔ j = k ∨ c.item j) :
    (Cache.mk c.max (Assoc.put c.ll k v) item).Holds (update stored k (some v)) where
  nodup := nodup_put h.nodup
  item j := by
    rw [hitem, h.item, ← isSome_lookup_iff, ← isSome_lookup_iff, lookup_put]
    split_ifs with hj <;> simp [hj]
  vals e he := by
    rcases mem_put.mp he with rfl | ⟨he, hne⟩
    · exact update_self ..
    · rw [update_of_ne hne]
      exact h.vals e he

theorem Holds.pushFront (hk : k ∉ c.keys) :
    (c.pushFront k v).Holds (update stored k (some v)) := by
  rw [Cache.pushFront, ← drop_of_not_mem hk]
  exact h.front fun j => by by_cases hj : j = k <;> simp [hj]

theorem Holds.evict :
    c.evict.Holds stored ∧ c.evict.keys = c.keys.take c.max ∧ c.evict.max = c.max := by
  fun_induction Cache.evict c with
  | case1 c hlt hnone => simp [getLast?_eq_none_iff.mp hnone] at hlt
  | case2 c hlt back hback ih =>
    obtain ⟨init, hinit⟩ := getLast?_eq_some_iff.mp hback
    have hkeys : c.keys = c.ll.dropLast.map Prod.fst ++ [back.1] := by simp [keys, hinit]
    have hshort : c.keys.take c.max = (c.ll.dropLast.map Prod.fst).take c.max := by
      rw [hkeys, take_append_of_le_length]
      rw [length_map, length_dropLast]
      exact Nat.le_sub_one_of_lt hlt
    obtain ⟨hnodup, -, hapart⟩ := nodup_append.mp (hkeys ▸ h.nodup)
    rw [hshort]
    refine ih ⟨hnodup, fun k => ?_, fun e he => h.vals e (dropLast_subset _ he)⟩
    change update c.item back.1 false k ↔ k ∈ c.ll.dropLast.map Prod.fst
    by_cases hk : k = back.1
    · rw [hk, update_self]
      exact iff_of_false Bool.false_ne_true fun hmem => hapart _ hmem _ mem_cons_self rfl
    · rw [update_of_ne hk, h.item, hkeys, mem_append, mem_singleton, or_iff_left hk]
  | case3 c hle =>
    rw [take_of_length_le (by simpa using hle)]
    exact ⟨h, rfl, rfl⟩

theorem Holds.get_of_mem (hk : k ∈ c.keys) :
    ∃ v, stored k = some v ∧ c.get k = (some v, c.moveToFront k v) := by
  have hitem := (h.item k).mpr hk
  obtain ⟨v, hv⟩ := Option.isSome_iff_exists.mp (isSome_lookup_iff.mpr hk)
  exact ⟨v, h.vals _ (mem_of_lookup hv), by simp [get, hitem, hv]⟩

theorem Holds.get_of_notMem (hk : k ∉ c.keys) : c.get k = (none, c) := by
  rw [← h.item, Bool.not_eq_true] at hk
  simp [get, hk]

end

end Cache

inductive Call (Val : Type)
  | get (key : String)
  | put (key : String) (v : Val)

/-- A cache with the keys that were put or found, the latest in front, and the values put last. -/
structure Run (Val : Type) where
  cache : Cache Val
  used : List String
  stored : String → Option Val

def step (r : Run Val) : Call Val → Run Val
  | .get key =>
    match r.cache.get key with
    | (none, c) => { r with cache := c }
    | (some _, c) => { r with cache := c, used := key :: r.used }
  | .put key v => ⟨r.cache.put key v, key :: r.used, update r.stored key (some v)⟩

structure Inv (n : Nat) (r : Run Val) : Prop where
  max : r.cache.max = n
  holds : r.cache.Holds r.stored
  order : r.cache.keys = (recent r.used).take n

theorem Inv.moveToFront {r : Run Val} (h : Inv n r) (hk : k ∈ r.cache.keys) :
    Inv n ⟨r.cache.moveToFront k v, k :: r.used, update r.stored k (some v)⟩ where
  max := h.max
  holds := h.holds.front fun j => (or_iff_right_of_imp fun hj => hj ▸ (h.holds.item k).mpr hk).symm
  order := by
    rw [take_recent_cons, ← h.order, h.holds.keys_moveToFront, take_of_length_le]
    rw [length_cons, length_erase_of_mem hk, Nat.sub_add_cancel (length_pos_of_mem hk), h.order]
    exact length_take_le _ _

theorem inv_step {r : Run Val} (h : Inv n r) (a : Call Val) : Inv n (step r a) := by
  cases a with
  | get key =>
    by_cases hk : key ∈ r.cache.keys
    · obtain ⟨v, hv, hget⟩ := h.holds.get_of_mem hk
      have hfront := h.moveToFront (v := v) hk
      rw [← hv, update_eq_self] at hfront
      simpa only [step, hget] using hfront
    · simpa only [step, h.holds.get_of_notMem hk] using h
  | put key v =>
    simp only [step, Cache.put]
    split_ifs with hitem
    · exact h.moveToFront ((h.holds.item key).mp hitem)
    · have hk := mt (h.holds.item key).mpr hitem
      obtain ⟨hholds, hkeys, hmax⟩ := (h.holds.pushFront (v := v) hk).evict
      refine ⟨hmax.trans h.max, hholds, hkeys.trans ?_⟩
      rw [take_recent_cons, ← h.order, erase_of_not_mem hk, ← h.max]
      rfl

/-- After any calls the list and the map hold the keys used last, as many as fit, and a key is
found, with its latest value, exactly while fewer keys than fit were used since. -/
theorem segmentCache_lru (maxEntries : Int) (calls : List (Call Val)) :
    let r := calls.foldl step ⟨newSegmentCache maxEntries, [], fun _ => none⟩
    let n := (newSegmentCache maxEntries : Cache Val).max
    r.cache.keys.Nodup ∧ (∀ k, r.cache.item k ↔ k ∈ r.cache.keys) ∧ r.cache.ll.length ≤ n ∧
      r.cache.keys = (recent r.used).take n ∧
      ∀ k, (r.cache.get k).1 = if k ∈ r.used ∧ (recent (r.used.takeWhile (· != k))).length < n
        then r.stored k else none := by
  intro r n
  have hinv : Inv n r := by
    refine foldlRecOn calls step ⟨rfl, ⟨nodup_nil, fun k => ?_, nofun⟩, ?_⟩
      fun r h a _ => inv_step h a
    · simp [newSegmentCache]
    · simp [newSegmentCache, recent]
  have hlength := length_take_le n (recent r.used)
  rw [← hinv.order, length_map] at hlength
  refine ⟨hinv.holds.nodup, hinv.holds.item, hlength, hinv.order, fun k => ?_⟩
  simp only [← mem_take_recent, ← hinv.order]
  split_ifs with hk
  · obtain ⟨v, hv, hget⟩ := hinv.holds.get_of_mem hk
    rw [hget, hv]
  · rw [hinv.holds.get_of_notMem hk]

end Fabriq.Document.SegmentCache
