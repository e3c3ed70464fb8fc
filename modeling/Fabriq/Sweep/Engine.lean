import Fabriq.Provision.Lifecycle

/-!
The engine that sweeps the tenants of the catalog.  Its steps are the sections under the engine's
lock and the points where a sweep gets its worker and reads its tenant's work, so that wakes,
passes and sweeps may interleave.
-/

namespace Fabriq.Sweep.Engine

open Lib Lib.Assoc Lib.Machine List Option
open Provision.Lifecycle (Entry)

structure Config where
  workers : Nat
  backoffBase : Nat
  backoffCap : Nat
  compactEvery : Nat
  minVersion : String

structure TenantState where
  nextDue : Nat
  backoff : Nat
  lastCompact : Nat
  inFlight : Bool
  seen : Bool
deriving DecidableEq

def TenantState.new : TenantState :=
  ⟨0, 0, 0, false, false⟩

structure Result where
  relayed : Nat
  materialized : Nat
  compacted : Nat
  claimed : Bool
deriving DecidableEq

def Result.busy (r : Result) : Bool :=
  0 < r.relayed || 0 < r.materialized || 0 < r.compacted

/-- The backoff of a sweep without work; `jitter` is what `Jitter` adds to its half. -/
def backoffLocked (cfg : Config) (st : TenantState) (now jitter : Nat) : TenantState :=
  let backoff :=
    if st.backoff = 0 then cfg.backoffBase
    else if cfg.backoffCap < st.backoff * 2 then cfg.backoffCap else st.backoff * 2
  { st with backoff := backoff, nextDue := now + backoff / 2 + min jitter (backoff / 2) }

/-- What a sweep writes when it ends; `res` is `none` for an error. -/
def finishSweep (cfg : Config) (compact : Bool) (res : Option Result) (done jitter : Nat)
    (st : TenantState) : TenantState :=
  let st := { st with inFlight := false }
  match res with
  | none => backoffLocked cfg st done jitter
  | some r =>
    let st :=
      if r.busy then { st with backoff := 0, nextDue := done }
      else backoffLocked cfg st done jitter
    if compact then { st with lastCompact := done } else st

inductive SweepPhase
  | queued
  | running
  | completed
deriving DecidableEq

structure TenantSweep where
  tenantId : String
  pass : Nat
  compact : Bool
  phase : SweepPhase
deriving DecidableEq

def TenantSweep.active (s : TenantSweep) : Bool :=
  s.phase != .completed

inductive PassPhase
  | scanning
  | waiting
  | finished
deriving DecidableEq

structure Pass where
  now : Nat
  phase : PassPhase
deriving DecidableEq

/-- The table of the engine, all passes and sweeps, and the tenants woken after a sweep last read
their work and not dispatched since. -/
structure World where
  state : List (String × TenantState)
  passes : List Pass
  sweeps : List TenantSweep
  woken : List String
deriving DecidableEq

def newEngine : World :=
  ⟨[], [], [], []⟩

def eligible (cfg : Config) (e : Entry) : Bool :=
  e.state == .active && !(cfg.minVersion != "" && decide (e.version < cfg.minVersion))

def World.setState (w : World) (tenantId : String) (st : TenantState) : World :=
  { w with state := put w.state tenantId st }

def World.setSweep (w : World) (j : Nat) (s : TenantSweep) (phase : SweepPhase) : World :=
  { w with sweeps := w.sweeps.set j { s with phase := phase } }

def World.setPass (w : World) (p : Nat) (ps : Pass) (phase : PassPhase) : World :=
  { w with passes := w.passes.set p { ps with phase := phase } }

def World.blocked (w : World) (p : Nat) : Bool :=
  w.sweeps.any fun s => s.pass == p && s.phase == .queued

def World.running (w : World) (p : Nat) : Nat :=
  w.sweeps.countP fun s => s.pass == p && s.phase == .running

/-- The section of `Pass` for an eligible entry. -/
def World.visit (cfg : Config) (w : World) (p now : Nat) (tenantId : String) : World :=
  let st := { (w.state.lookup tenantId).getD .new with seen := true }
  if st.inFlight || now < st.nextDue then w.setState tenantId st
  else
    let compact := st.lastCompact == 0 || st.lastCompact + cfg.compactEvery ≤ now
    { w.setState tenantId { st with inFlight := true } with
      sweeps := w.sweeps ++ [⟨tenantId, p, compact, .queued⟩]
      woken := w.woken.filter (· ≠ tenantId) }

def World.wake (w : World) (tenantId : String) : World :=
  { w.setState tenantId
      { (w.state.lookup tenantId).getD .new with backoff := 0, nextDue := 0 } with
    woken := tenantId :: w.woken }

inductive Action
  | wake (tenantId : String)
  | beginPass (now : Nat)
  | list (p : Nat) (e : Entry)
  | endScan (p : Nat)
  | finishPass (p : Nat)
  | start (j : Nat)
  | read (j : Nat)
  | complete (j : Nat) (res : Option Result) (done jitter : Nat)

/-- A pass lists any entries; an error of the catalog ends its scan. -/
def step (cfg : Config) (w : World) : Action → Option World
  | .wake tenantId => some (w.wake tenantId)
  | .beginPass now =>
    some { w with
      state := mapValues w.state fun _ st => { st with seen := false }
      passes := w.passes ++ [⟨now, .scanning⟩] }
  | .list p e =>
    match w.passes[p]? with
    | some ⟨now, .scanning⟩ =>
      if w.blocked p then none
      else if eligible cfg e then some (w.visit cfg p now e.tenantId)
      else some w
    | _ => none
  | .endScan p =>
    match w.passes[p]? with
    | some ⟨now, .scanning⟩ =>
      if w.blocked p then none else some (w.setPass p ⟨now, .scanning⟩ .waiting)
    | _ => none
  | .finishPass p =>
    match w.passes[p]? with
    | some ⟨now, .waiting⟩ =>
      if w.sweeps.any fun s => s.pass == p && s.active then none
      else
        some { w.setPass p ⟨now, .waiting⟩ .finished with
          state := w.state.filter fun e => e.2.seen || e.2.inFlight }
    | _ => none
  | .start j =>
    match w.sweeps[j]? with
    | some s =>
      if s.phase = .queued ∧ w.running s.pass < cfg.workers then
        some (w.setSweep j s .running)
      else none
    | none => none
  | .read j =>
    match w.sweeps[j]? with
    | some s =>
      if s.phase = .running then
        some { w with woken := w.woken.filter (· ≠ s.tenantId) }
      else none
    | none => none
  | .complete j res done jitter =>
    match w.sweeps[j]? with
    | some s =>
      if s.phase = .running then
        -- the state of a tenant in flight stays in the table, so the sweep's own pointer
        -- is the one found there
        match w.state.lookup s.tenantId with
        | some st =>
          some ((w.setSweep j s .completed).setState s.tenantId
            (finishSweep cfg s.compact res done jitter st))
        | none => some (w.setSweep j s .completed)
      else none
    | none => none

variable {cfg : Config} {w w' : World} {a : Action} {tenantId : String}

def World.inFlight (w : World) (tenantId : String) : Bool :=
  ((w.state.lookup tenantId).getD .new).inFlight

/-- A woken tenant is dispatched by the next pass that finds none of its sweeps in flight. -/
def NoLostWake (cfg : Config) (w : World) : Prop :=
  ∀ p e w', e.tenantId ∈ w.woken → eligible cfg e = true → w.inFlight e.tenantId = false →
    step cfg w (.list p e) = some w' →
    ∃ compact, w'.sweeps = w.sweeps ++ [⟨e.tenantId, p, compact, .queued⟩]

/-- No sweep ends with a wake behind it: it has read its tenant's work since. -/
def ReadSinceWake (w : World) : Action → Prop
  | .complete j .. => ∀ s ∈ w.sweeps[j]?, s.tenantId ∉ w.woken
  | _ => True

instance (w : World) : (a : Action) → Decidable (ReadSinceWake w a)
  | .complete j .. => inferInstanceAs (Decidable (∀ s ∈ w.sweeps[j]?, s.tenantId ∉ w.woken))
  | .wake _ | .beginPass _ | .list .. | .endScan _ | .finishPass _ | .start _ | .read _ =>
    isTrue trivial

def Due (w : World) : Prop :=
  ∀ e ∈ w.state, e.1 ∈ w.woken → e.2.nextDue = 0

theorem Due.nextDue (h : Due w) (hwoken : tenantId ∈ w.woken) :
    ((w.state.lookup tenantId).getD .new).nextDue = 0 := by
  cases hst : w.state.lookup tenantId with
  | none => rfl
  | some st => exact h _ (mem_of_lookup hst) hwoken

theorem Due.noLostWake (h : Due w) : NoLostWake cfg w := by
  intro p e w' hwoken heligible hidle hstep
  rw [step] at hstep
  split at hstep
  · rename_i now hpass
    split at hstep
    · cases hstep
    · cases hstep
      rw [World.inFlight] at hidle
      simp only [World.visit, hidle, h.nextDue hwoken, Nat.not_lt_zero, decide_false, Bool.or_self,
        Bool.false_eq_true, if_false]
      exact ⟨_, rfl⟩
  · cases hstep

theorem due_visit (h : Due w) (p now : Nat) (tenantId : String) :
    Due (w.visit cfg p now tenantId) := by
  rw [World.visit]
  split
  · intro e he hwoken
    rcases Assoc.mem_put.mp he with rfl | ⟨he, -⟩
    · exact h.nextDue hwoken
    · exact h e he hwoken
  · intro e he hwoken
    obtain ⟨hwoken, hne⟩ := mem_filter.mp hwoken
    rcases Assoc.mem_put.mp he with rfl | ⟨he, -⟩
    · simp at hne
    · exact h e he hwoken

theorem due_step (h : Due w) (hok : ReadSinceWake w a) (hstep : step cfg w a = some w') :
    Due w' := by
  revert hok hstep
  fun_cases step cfg w a <;> rintro hok ⟨⟩
  · intro e he hwoken
    rcases Assoc.mem_put.mp he with rfl | ⟨he, hne⟩
    · rfl
    · exact h e he ((mem_cons.mp hwoken).resolve_left hne)
  · intro e he hwoken
    obtain ⟨old, hold, rfl⟩ := List.mem_map.mp he
    exact h old hold hwoken
  · exact due_visit h _ _ _
  · exact h
  · exact h
  · exact fun e he => h e (mem_of_mem_filter he)
  · exact h
  · exact fun e he hwoken => h e he (mem_of_mem_filter hwoken)
  · rename_i s hs _ _ _
    intro e he hwoken
    rcases Assoc.mem_put.mp he with rfl | ⟨he, -⟩
    · exact absurd hwoken (hok s hs)
    · exact h e he hwoken
  · exact h

/-- In every such run no wake is lost. -/
theorem no_lost_wake {cfg : Config} {actions : List Action} {w : World}
    (hok : Along (step cfg) ReadSinceWake newEngine actions)
    (hrun : run (step cfg) newEngine actions = some w) : NoLostWake cfg w := by
  have hdue : Due newEngine := fun e he => absurd he (by simp [newEngine])
  exact (run_invariant (fun _ _ _ => due_step) hdue hok hrun).noLostWake

def config : Config :=
  ⟨2, 5, 300, 30, ""⟩

def acme : Entry :=
  ⟨"acme", "c1", "fabriq_acme", .active, "", ""⟩

def idle : Result :=
  ⟨0, 0, 0, true⟩

def firstPass : List Action :=
  [.beginPass 10, .list 0 acme, .start 0, .endScan 0]

def wakeBeforeRead : List Action :=
  firstPass ++ [.wake "acme", .read 0, .complete 0 (some idle) 12 5, .finishPass 0, .wake "acme",
    .beginPass 13]

theorem no_lost_wake_wakeBeforeRead :
    ∃ w, run (step config) newEngine wakeBeforeRead = some w ∧ "acme" ∈ w.woken ∧
      NoLostWake config w := by
  have hok : Along (step config) ReadSinceWake newEngine wakeBeforeRead := by decide
  exact ⟨_, rfl, by decide, no_lost_wake hok rfl⟩

def wakeAfterRead : List Action :=
  firstPass ++ [.read 0, .wake "acme", .complete 0 (some idle) 12 5, .finishPass 0, .beginPass 13]

/-- The sweep that ends idle writes its backoff over the wake. -/
theorem wake_overwritten :
    ∃ w, run (step config) newEngine wakeAfterRead = some w ∧ "acme" ∈ w.woken ∧
      w.inFlight "acme" = false ∧ ¬ NoLostWake config w := by
  refine ⟨_, rfl, by decide, rfl, fun hlost => ?_⟩
  obtain ⟨compact, hsweeps⟩ := hlost 1 acme _ (by decide) (by decide) rfl rfl
  exact absurd (show 1 = 2 from congrArg length hsweeps) (by decide)

end Fabriq.Sweep.Engine
