import Fabriq.Exec.CommandStore

namespace Fabriq.Exec.BatchRuns

open Core.Schema Exec.CommandStore List

inductive Failure
  | refused (error : Error)
  | hook (text : String)
  | store

structure Event extends Envelope where
  id : String

/-- A lifecycle hook: it may write in the transaction, and an error is a veto. -/
abbrev Hook := Db → Event → Except String Db

structure Result where
  aggId : String
  version : Int
  eventId : String

def resultOf (env : Event) : Result :=
  ⟨env.aggId, env.version, env.id⟩

/-- What one run meets: the committed state at its start, the hooks, whose errors stand for those
of the transaction too, and the id that is drawn for the event at an index. -/
structure Run where
  start : Db
  hooks : List Hook
  ids : Nat → String

/-- `apply` with the hooks, which see the change after it is staged. -/
def applyHooked (run : Run) (i : Nat) (db : Db) (p : Prepared) : Except Failure (Db × Event) :=
  match apply db p with
  | .error e => .error (.refused e)
  | .ok (staged, env) =>
    match run.hooks.foldlM (fun db h => h db ⟨env, run.ids i⟩) staged with
    | .error text => .error (.hook text)
    | .ok after => .ok (after, ⟨env, run.ids i⟩)

/-- The variables of `ExecBatch` that outlive a run of its closure. -/
structure Vars where
  results : List Result
  changes : List Event

/-- The loop of the closure from index `i` on. -/
def closure (run : Run) : List Prepared → Nat → Db → Vars → Vars × Except Failure Db
  | [], _, db, vars => (vars, .ok db)
  | p :: rest, i, db, vars =>
    match applyHooked run i db p with
    | .error e => (vars, .error e)
    | .ok (after, env) =>
      closure run rest (i + 1) after ⟨vars.results.set i (resultOf env), vars.changes ++ [env]⟩

def attempt (prepared : List Prepared) (vars : Vars) (run : Run) : Vars × Except Failure Db :=
  closure run prepared 0 run.start { vars with changes := [] }

/-- `InTenantTx` runs the closure as often as it likes; the last outcome counts. -/
def inTenantTx (prepared : List Prepared) (runs : List Run) (vars : Vars) :
    Vars × Except Failure Db :=
  runs.foldl (fun acc run => attempt prepared acc.1 run) (vars, .error .store)

/-- What a call leaves: its answer, the committed state and what the post-commit hooks got. -/
structure Outcome where
  answer : Except Failure (List Result)
  db : Db
  notified : Option (List Event)

/-- `ExecBatch` over a store that holds `stored`; `commits` says whether the last run, if it ends
well, is committed. -/
def execBatch (x : Executor) (batch : List Request) (stored : Db) (runs : List Run)
    (commits : Bool) : Outcome :=
  if batch = [] then ⟨.ok [], stored, none⟩ else
  match batch.mapM (Request.prepare x) with
  | .error e => ⟨.error (.refused e), stored, none⟩
  | .ok prepared =>
    let (vars, last) := inTenantTx prepared runs ⟨prepared.map fun _ => ⟨"", 0, ""⟩, []⟩
    match last with
    | .error e => ⟨.error e, stored, none⟩
    | .ok db =>
      if commits then ⟨.ok vars.results, db, some vars.changes⟩ else ⟨.error .store, stored, none⟩

def inOrder (run : Run) : List Prepared → Nat → Db → Except Failure (Db × List Event)
  | [], _, db => .ok (db, [])
  | p :: rest, i, db => do
    let (after, env) ← applyHooked run i db p
    let (last, envs) ← inOrder run rest (i + 1) after
    return (last, env :: envs)

variable {run : Run} {ps : List Prepared} {db last : Db} {vars vars' : Vars} {i : Nat}

theorem length_closure : (closure run ps i db vars).1.results.length = vars.results.length := by
  induction ps generalizing i db vars with
  | nil => rfl
  | cons p rest ih =>
    unfold closure
    split
    · rfl
    · rw [ih, length_set]

/-- A run that ends well has overwritten every slot from the end of `done` on. -/
theorem closure_eq_ok (done : List Result) {slots : List Result} {changes : List Event}
    (hslots : slots.length = ps.length)
    (h : closure run ps done.length db ⟨done ++ slots, changes⟩ = (vars', .ok last)) :
    ∃ envs, inOrder run ps done.length db = .ok (last, envs) ∧
      vars' = ⟨done ++ envs.map resultOf, changes ++ envs⟩ := by
  induction ps generalizing db done slots changes with
  | nil =>
    cases h
    exact ⟨[], rfl, by rw [length_eq_zero_iff.mp hslots]; simp⟩
  | cons p rest ih =>
    obtain ⟨slot, slots, rfl⟩ := exists_cons_of_length_eq_add_one hslots
    unfold closure at h
    split at h
    · cases h
    · rename_i after env happly
      have hlen : (done ++ [resultOf env]).length = done.length + 1 := length_append
      rw [set_append_right _ _ le_rfl, Nat.sub_self, set_cons_zero, append_cons, ← hlen] at h
      obtain ⟨envs, henvs, rfl⟩ := ih _ (Nat.succ.inj hslots) h
      refine ⟨env :: envs, ?_, by simp⟩
      rw [hlen] at henvs
      rw [inOrder, happly]
      simp only [bind, Except.bind, henvs]
      rfl

theorem length_inTenantTx (prepared : List Prepared) (runs : List Run) (vars : Vars) :
    (inTenantTx prepared runs vars).1.results.length = vars.results.length :=
  foldlRecOn (motive := fun acc : Vars × _ => acc.1.results.length = vars.results.length) runs _
    rfl fun _ hacc _ _ => length_closure.trans hacc

theorem inTenantTx_eq_ok {runs : List Run} (hslots : vars.results.length = ps.length)
    (h : inTenantTx ps runs vars = (vars', .ok last)) :
    ∃ run ∈ runs.getLast?, ∃ envs, inOrder run ps 0 run.start = .ok (last, envs) ∧
      vars' = ⟨envs.map resultOf, envs⟩ := by
  rcases eq_nil_or_concat' runs with rfl | ⟨abandoned, run, rfl⟩
  · cases h
  · rw [inTenantTx, foldl_concat] at h
    exact ⟨run, getLast?_concat, closure_eq_ok []
      ((length_inTenantTx ps abandoned vars).trans hslots) h⟩

end Fabriq.Exec.BatchRuns
