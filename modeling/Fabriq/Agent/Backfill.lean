import Fabriq.Lib.Machine
import Mathlib.Data.List.Sort
import Mathlib.Data.String.Basic

/-!
`Reindex` and `Distill` of the agent list the rows of an entity page by page, cut by offset in
the order of the ids, while other writers change the table.
-/

namespace Fabriq.Agent.Backfill

open Lib.Machine List

structure Row where
  id : String
  text : String

/-- `Reindex` skips the rows whose text is blank, `Distill` takes them all. -/
structure Config where
  batch : Nat
  takes : Row → Bool

/-- The tables, and a call that has the entities left to list, the first from `offset` on. -/
structure World where
  table : String → List Row
  entities : List String
  offset : Nat
  processed : List (String × String)
  failed : Bool

def listEntityVals (rows : List Row) (limit offset : Nat) : List Row :=
  ((rows.insertionSort fun a b => a.id ≤ b.id).drop offset).take limit

inductive Action
  | insert (entity : String) (row : Row)
  | update (entity : String) (row : Row)
  | delete (entity id : String)
  | page (answers : Bool)

def World.setTable (w : World) (entity : String) (f : List Row → List Row) : World :=
  { w with table := fun e => if e = entity then f (w.table e) else w.table e }

def World.take (cfg : Config) (w : World) (entity : String) (rows : List Row) : World :=
  let taken := rows.filter fun row => row.id != "" && cfg.takes row
  { w with processed := w.processed ++ taken.map fun row => (entity, row.id) }

/-- A page is listed and processed at once; it fails as a whole. -/
def step (cfg : Config) (w : World) : Action → Option World
  | .insert entity row =>
    if row.id ∈ (w.table entity).map Row.id then none
    else some (w.setTable entity (row :: ·))
  | .update entity row =>
    some (w.setTable entity (map fun old => if old.id = row.id then row else old))
  | .delete entity id => some (w.setTable entity (filter fun row => row.id ≠ id))
  | .page answers =>
    match w.failed, w.entities with
    | false, entity :: rest =>
      if answers then
        let rows := listEntityVals (w.table entity) cfg.batch w.offset
        let w := w.take cfg entity rows
        if rows.length < cfg.batch then some { w with entities := rest, offset := 0 }
        else some { w with offset := w.offset + cfg.batch }
      else some { w with failed := true }
    | _, _ => none

def start (table : String → List Row) (entities : List String) : World :=
  ⟨table, entities, 0, [], false⟩

def Lives (cfg : Config) (entity id : String) (w : World) : Prop :=
  id ∈ (w.table entity).map Row.id ∧ ∀ row ∈ w.table entity, row.id = id → cfg.takes row

def Action.deletesBefore (entity id : String) : Action → Bool
  | .delete e before => e == entity && decide (before < id)
  | _ => false

def Stays (cfg : Config) (entity id : String) (w : World) (a : Action) : Prop :=
  Lives cfg entity id w ∧ a.deletesBefore entity id = false

variable {cfg : Config} {entity id : String} {w w' : World} {a : Action} {rows : List Row}

instance : Decidable (Lives cfg entity id w) :=
  inferInstanceAs (Decidable (_ ∧ _))

instance : Decidable (Stays cfg entity id w a) :=
  inferInstanceAs (Decidable (_ ∧ _))

/-- The number of rows before an id is the place of its row in the order. -/
theorem exists_getElem (hsorted : rows.Pairwise fun a b => a.id ≤ b.id)
    (hmem : id ∈ rows.map Row.id) :
    ∃ row, rows[rows.countP fun row => row.id < id]? = some row ∧ row.id = id := by
  induction rows with
  | nil => simp at hmem
  | cons first rest ih =>
    rw [pairwise_cons] at hsorted
    rw [map_cons, mem_cons] at hmem
    by_cases hlt : first.id < id
    · rw [countP_cons_of_pos (by simpa using hlt), getElem?_cons_succ]
      exact ih hsorted.2 (hmem.resolve_left hlt.ne')
    · have hnone : (first :: rest).countP (fun row => row.id < id) = 0 := by
        refine countP_eq_zero.mpr fun row hrow hbefore => hlt ?_
        rcases mem_cons.mp hrow with rfl | hrow
        · exact of_decide_eq_true hbefore
        · exact (hsorted.1 row hrow).trans_lt (of_decide_eq_true hbefore)
      rw [hnone]
      refine ⟨first, rfl, le_antisymm ?_ (not_lt.mp hlt)⟩
      rcases hmem with rfl | hmem
      · exact le_rfl
      · obtain ⟨row, hrow, rfl⟩ := mem_map.mp hmem
        exact hsorted.1 row hrow

/-- An id whose place is not before the page is on it, or the page is full and ends before. -/
theorem mem_page_or {limit offset : Nat} (hmem : id ∈ rows.map Row.id)
    (hoffset : offset ≤ rows.countP fun row => row.id < id) :
    (∃ row ∈ listEntityVals rows limit offset, row.id = id) ∨
      ¬ (listEntityVals rows limit offset).length < limit ∧
        offset + limit ≤ rows.countP fun row => row.id < id := by
  let sorted := rows.insertionSort fun a b => a.id ≤ b.id
  have hperm : sorted.Perm rows := perm_insertionSort _ _
  have hsorted : sorted.Pairwise fun a b => a.id ≤ b.id := by
    have htrans : IsTrans Row fun a b => a.id ≤ b.id := ⟨fun _ _ _ => le_trans⟩
    have htotal : Std.Total fun a b : Row => a.id ≤ b.id := ⟨fun a b => le_total a.id b.id⟩
    exact pairwise_insertionSort _ _
  obtain ⟨row, hrow, hid⟩ := exists_getElem hsorted ((hperm.map Row.id).mem_iff.mpr hmem)
  rw [hperm.countP_eq] at hrow
  have hlength := (List.getElem?_eq_some_iff.mp hrow).1
  change (∃ row ∈ (sorted.drop offset).take limit, _) ∨
    ¬ ((sorted.drop offset).take limit).length < _ ∧ _
  generalize rows.countP (fun row => row.id < id) = place at *
  by_cases hbefore : place < offset + limit
  · refine .inl ⟨row, mem_iff_getElem?.mpr ⟨place - offset, ?_⟩, hid⟩
    rw [getElem?_take_of_lt (by omega), getElem?_drop, Nat.add_sub_cancel' hoffset]
    exact hrow
  · rw [length_take, length_drop]
    omega

/-- The row was processed, or its entity is left to list and no page is past it. -/
def Inv (entity id : String) (w : World) : Prop :=
  (entity, id) ∈ w.processed ∨ entity ∈ w.entities ∧
    (w.entities.head? = some entity → w.offset ≤ (w.table entity).countP fun row => row.id < id)

theorem Inv.setTable (h : Inv entity id w) {e : String} {f : List Row → List Row}
    (hcount : e = entity → (w.table entity).countP (fun row => row.id < id) ≤
      (f (w.table entity)).countP fun row => row.id < id) : Inv entity id (w.setTable e f) := by
  refine h.imp_right fun ⟨hleft, hoffset⟩ => ⟨hleft, fun hhead => (hoffset hhead).trans ?_⟩
  change _ ≤ (if entity = e then f (w.table entity) else w.table entity).countP _
  split
  · rename_i heq
    exact hcount heq.symm
  · exact le_rfl

theorem Inv.take (hid : id ≠ "") (h : Inv entity id w) (hlives : Lives cfg entity id w)
    {e : String} {rest : List String} (hentities : w.entities = e :: rest) :
    let rows := listEntityVals (w.table e) cfg.batch w.offset
    (entity, id) ∈ (w.take cfg e rows).processed ∨ entity ∈ e :: rest ∧
      (e = entity → ¬ rows.length < cfg.batch ∧
        w.offset + cfg.batch ≤ (w.table entity).countP fun row => row.id < id) := by
  intro rows
  rcases h with hdone | ⟨hleft, hoffset⟩
  · exact .inl (mem_append_left _ hdone)
  · by_cases heq : e = entity
    · subst heq
      rcases mem_page_or hlives.1 (hoffset (by rw [hentities]; rfl)) with ⟨row, hrow, rfl⟩ | hpast
      · refine .inl (mem_append_right _ (mem_map.mpr ⟨row, mem_filter.mpr ⟨hrow, ?_⟩, rfl⟩))
        have hin : row ∈ w.table e := (mem_insertionSort _).mp (mem_of_mem_drop (mem_of_mem_take hrow))
        simp [hid, hlives.2 row hin rfl]
      · exact .inr ⟨hentities ▸ hleft, fun _ => hpast⟩
    · exact .inr ⟨hentities ▸ hleft, fun h => absurd h heq⟩

theorem Inv.step (hid : id ≠ "") (h : Inv entity id w) (hstays : Stays cfg entity id w a)
    (hstep : step cfg w a = some w') : Inv entity id w' := by
  obtain ⟨hlives, hbefore⟩ := hstays
  revert hbefore hstep
  fun_cases Backfill.step cfg w a <;> rintro ⟨⟩ hbefore
  · rename_i e row _
    refine h.setTable fun _ => ?_
    rw [countP_cons]
    omega
  · rename_i e row
    refine h.setTable fun _ => ?_
    rw [countP_map]
    refine le_of_eq (countP_congr fun old _ => ?_)
    by_cases hsame : old.id = row.id <;> simp [hsame]
  · rename_i e gone
    refine h.setTable fun heq => ?_
    rw [countP_filter]
    refine le_of_eq (countP_congr fun row _ => ?_)
    have hkept : row.id < id → row.id ≠ gone := by
      rintro hlt rfl
      simp [Action.deletesBefore, heq, hlt] at hbefore
    simpa using hkept
  · rename_i hentities _ _ _ hshort
    refine (h.take hid hlives hentities).imp_right fun ⟨hleft, hpast⟩ => ?_
    refine ⟨(mem_cons.mp hleft).resolve_left fun heq => ?_, fun _ => Nat.zero_le _⟩
    exact (hpast heq.symm).1 hshort
  · rename_i hentities _ _ _ _
    refine (h.take hid hlives hentities).imp_right fun ⟨hleft, hpast⟩ => ?_
    refine ⟨hentities ▸ hleft, fun hhead => (hpast ?_).2⟩
    change w.entities.head? = some entity at hhead
    rw [hentities] at hhead
    exact Option.some.inj hhead
  · exact h

def reindex : Config :=
  ⟨1, fun row => row.text.toList.any fun c => !c.isWhitespace⟩

def assets : String → List Row :=
  fun _ => [⟨"c", "z"⟩, ⟨"a", "x"⟩, ⟨"b", "y"⟩]

def insertsBetween : List Action :=
  [.page true, .insert "asset" ⟨"aa", ""⟩, .page true, .page true, .page true, .page true]

def deletesFirst : List Action :=
  [.page true, .delete "asset" "a", .page true, .page true]

end Fabriq.Agent.Backfill
