import Mathlib.Order.Nat
import Mathlib.Order.Lattice
import Fabriq.Lib.Machine

namespace Fabriq.Redis.ClaimStale

open Lib.Machine List

variable {ι : Type} [LinearOrder ι]

/-- An entry of the group's pending list: how long it is idle, whether the stream still holds it,
and whether its envelope decodes. -/
structure Entry (ι : Type) where
  id : ι
  idle : Nat
  inStream : Bool := true
  decodes : Bool := true

def minIdle : Nat := 1000

def Entry.claimable (e : Entry ι) : Bool :=
  decide (minIdle ≤ e.idle) && e.inStream

/-- What an `XAUTOCLAIM` meets: the pending list at that time in the order of the ids, and how
many entries it scans. -/
inductive Answer (ι : Type) [LinearOrder ι]
  | page (pending : List (Entry ι)) (sorted : pending.Pairwise fun a b => a.id < b.id)
      (scanned : Nat)
  | noGroup
  | failed

/-- A `claimStale` call: where it continues, what it passed to the handler, and whether it failed.
It has returned when there is no position. -/
structure Call (ι : Type) where
  start : Option ι
  handled : List ι
  failed : Bool

def begun [OrderBot ι] : Call ι :=
  ⟨some ⊥, [], false⟩

def ahead (pending : List (Entry ι)) (start : ι) : List (Entry ι) :=
  pending.filter fun e => decide (start ≤ e.id)

def claimed (pending : List (Entry ι)) (start : ι) (scanned : Nat) : List (Entry ι) :=
  ((ahead pending start).take scanned).filter Entry.claimable

/-- `handleEntry`: an entry that cannot be decoded is acknowledged and not passed on. -/
def handle (entries : List (Entry ι)) : List ι :=
  (entries.filter Entry.decodes).map Entry.id

def step (c : Call ι) (a : Answer ι) : Option (Call ι) :=
  match c.start, a with
  | none, _ => none
  | some _, .failed => some { c with start := none, failed := true }
  | some _, .noGroup => some { c with start := none }
  | some start, .page pending _ scanned =>
    let entries := claimed pending start scanned
    let next := ((ahead pending start).drop scanned).head?.map Entry.id
    some { c with
      start := if entries.isEmpty then none else next
      handled := c.handled ++ handle entries }

def Answer.stale (id : ι) : Answer ι → Prop
  | .page pending _ _ => ∃ e ∈ pending, e.id = id ∧ e.claimable = true
  | _ => False

/-- What is claimable can be decoded, and a page of which nothing is claimed has nothing
claimable behind it. -/
def PageOk (c : Call ι) : Answer ι → Prop
  | .page pending _ scanned => ∀ start ∈ c.start,
      (∀ e ∈ pending, e.claimable = true → e.decodes = true) ∧
        (claimed pending start scanned = [] →
          ∀ e ∈ (ahead pending start).drop scanned, e.claimable = false)
  | _ => True

instance (c : Call ι) : ∀ a, Decidable (PageOk c a)
  | .page .. => inferInstanceAs (Decidable (∀ start ∈ c.start, _ ∧ (_ → _)))
  | .noGroup | .failed => isTrue trivial

variable {c d : Call ι} {a : Answer ι} {id : ι} {trace : List (Answer ι)}

theorem mem_handle {pending : List (Entry ι)} {start : ι} {scanned : Nat} {e : Entry ι}
    (hdecodes : ∀ e ∈ pending, e.claimable = true → e.decodes = true)
    (he : e ∈ (ahead pending start).take scanned) (hstale : e.claimable = true) :
    e.id ∈ handle (claimed pending start scanned) := by
  have hmem : e ∈ pending := mem_of_mem_filter (mem_of_mem_take he)
  exact mem_map_of_mem (mem_filter.mpr ⟨mem_filter.mpr ⟨he, hstale⟩, hdecodes e hmem hstale⟩)

/-- Every entry that is stale all along is handled or still ahead. -/
theorem step_handled (hstale : a.stale id) (hok : PageOk c a)
    (hstep : step c a = some d) (h : id ∈ c.handled ∨ ∃ start ∈ c.start, start ≤ id) :
    id ∈ d.handled ∨ ∃ start ∈ d.start, start ≤ id := by
  cases a with
  | noGroup | failed => cases hstale
  | page pending hsorted scanned =>
    cases hstart : c.start with
    | none => simp [step, hstart] at hstep
    | some start =>
      simp only [step, hstart, Option.some.injEq] at hstep
      subst hstep
      rcases h with hold | ⟨start', hstart', hle⟩
      · exact .inl (mem_append_left _ hold)
      obtain rfl : start = start' := Option.some.inj (hstart.symm.trans hstart')
      obtain ⟨hdecodes, hbehind⟩ := hok start hstart
      obtain ⟨e, he, rfl, hclaim⟩ := hstale
      have hahead : e ∈ ahead pending start := mem_filter.mpr ⟨he, by simpa using hle⟩
      rw [← take_append_drop scanned (ahead pending start), mem_append] at hahead
      rcases hahead with htake | hdrop
      · exact .inl (mem_append_right _ (mem_handle hdecodes htake hclaim))
      -- The page ends before the entry, so something of it is claimed and the call goes on.
      right
      have hne : claimed pending start scanned ≠ [] := fun hnil =>
        Bool.false_ne_true ((hbehind hnil e hdrop).symm.trans hclaim)
      have hrest : ((ahead pending start).drop scanned).Pairwise fun a b => a.id < b.id :=
        (hsorted.sublist filter_sublist).sublist (drop_sublist _ _)
      simp only [List.isEmpty_iff, if_neg hne]
      cases hlist : (ahead pending start).drop scanned with
      | nil => simp [hlist] at hdrop
      | cons first rest =>
        rw [hlist] at hdrop hrest
        refine ⟨first.id, rfl, ?_⟩
        rcases mem_cons.mp hdrop with rfl | hmem
        · exact le_rfl
        · exact (rel_of_pairwise_cons hrest hmem).le

/-- A call that returns without an error has handled every entry that was stale all along, in
every run whose pages are in order. -/
theorem claimStale_exhaustive [OrderBot ι] (trace : List (Answer ι))
    (hok : Along step PageOk begun trace) {c : Call ι} (hrun : run step begun trace = some c)
    (hreturned : c.start = none) (id : ι) (hstale : ∀ a ∈ trace, a.stale id) :
    id ∈ c.handled := by
  suffices h : ∀ d : Call ι, (id ∈ d.handled ∨ ∃ start ∈ d.start, start ≤ id) →
      Along step PageOk d trace → run step d trace = some c →
        id ∈ c.handled ∨ ∃ start ∈ c.start, start ≤ id by
    refine (h begun (.inr ⟨⊥, rfl, bot_le⟩) hok hrun).resolve_right ?_
    rw [hreturned]
    rintro ⟨_, ⟨⟩, -⟩
  clear hok hrun
  induction trace with
  | nil =>
    intro d hd _ hrun
    exact Option.some.inj hrun ▸ hd
  | cons a rest ih =>
    intro d hd hok hrun
    obtain ⟨e, hstep, hrest⟩ := run_cons_eq_some.mp hrun
    rw [forall_mem_cons] at hstale
    exact ih hstale.2 e (step_handled hstale.1 hok.1 hstep hd) (hok.2 e hstep) hrest

def worked (idle : Nat) : Answer Nat :=
  .page [⟨1, idle, true, true⟩, ⟨2, 5, true, true⟩, ⟨3, 9000, true, true⟩] (by simp) 2

/-- Behind entries that their consumer still works on, a stale one is never reached. -/
theorem stale_entry_missed :
    ∃ c, run step begun [worked 0] = some c ∧ c.start = none ∧ c.failed = false ∧
      (worked 0).stale 3 ∧ 3 ∉ c.handled :=
  ⟨_, rfl, rfl, rfl, ⟨⟨3, 9000, true, true⟩, by simp, rfl, rfl⟩, by decide⟩

theorem claimStale_exhaustive_worked :
    ∃ c, run step begun [worked 2000, worked 0] = some c ∧ c.failed = false ∧ 3 ∈ c.handled := by
  have hstale : ∀ idle, (worked idle).stale 3 :=
    fun idle => ⟨⟨3, 9000, true, true⟩, by simp, rfl, rfl⟩
  refine ⟨_, rfl, rfl, claimStale_exhaustive [worked 2000, worked 0] (by decide) rfl rfl 3 ?_⟩
  exact forall_mem_cons.mpr ⟨hstale 2000, forall_mem_singleton.mpr (hstale 0)⟩

end Fabriq.Redis.ClaimStale
