import Fabriq.Analytics.Consumer
import Fabriq.Lib.Machine

namespace Fabriq.Analytics.Reproject

open Analytics.Consumer Lib.Gated Lib.Machine

/-- How far a `ReprojectTenant` is with a row: its SELECT has returned the payload, and the
UPDATE is yet to come. -/
inductive Phase
  | waiting
  | holding (payload : String)
  | done

/-- A row of the facts, with all that was upserted to it; the payloads are `jsonb` texts. -/
structure FactRow where
  held : Option Fact := none
  delivered : List Fact := []
  phase : Phase := .waiting

inductive Action
  | upsert (f : Fact)
  | scan
  | update

section

variable (transform : String → Option String)

/-- A transform that fails ends the reprojection without the UPDATE. -/
def step (w : FactRow) : Action → Option FactRow
  | .upsert f => some { w with
      held := some (offerNewer Fact.version w.held f)
      delivered := f :: w.delivered }
  | .scan =>
    match w.phase with
    | .waiting => some { w with phase := w.held.elim .done fun f => .holding f.payload }
    | _ => none
  | .update =>
    match w.phase with
    | .holding payload => some { w with
        held := w.held.map fun f => { f with payload := (transform payload).getD f.payload }
        phase := .done }
    | _ => none

/-- The payload is the one delivered for the version of the fact, or the transform of it. -/
def Unmixed (w : FactRow) : Prop :=
  ∀ f, w.held = some f → ∃ g ∈ w.delivered, g.version = f.version ∧
    (f.payload = g.payload ∨ transform g.payload = some f.payload)

/-- No newer version arrives between the read and the update. -/
def quiet (w : FactRow) : Action → Bool
  | .upsert f =>
    match w.phase with
    | .holding _ => w.held.all fun old => decide (f.version ≤ old.version)
    | _ => true
  | _ => true

structure Inv (w : FactRow) : Prop where
  read : ∀ payload, w.phase = .holding payload → ∃ f, w.held = some f ∧ f.payload = payload
  own : ∀ f, w.held = some f → ∃ g ∈ w.delivered, g.version = f.version ∧
    (f.payload = g.payload ∨ w.phase = .done ∧ transform g.payload = some f.payload)

end

variable {transform : String → Option String} {w v : FactRow} {a : Action}

theorem Inv.step (h : Inv transform w) (hquiet : quiet w a)
    (hstep : step transform w a = some v) : Inv transform v := by
  revert hquiet hstep
  fun_cases Reproject.step transform w a <;> rintro hquiet ⟨⟩
  · rename_i f
    refine ⟨fun payload hphase => ?_, fun g hg => ?_⟩
    · obtain ⟨old, hold, hpayload⟩ := h.read payload hphase
      have hle : ¬ old.version < f.version := by
        have hreading : w.phase = .holding payload := hphase
        simpa [quiet, hreading, hold] using hquiet
      refine ⟨old, ?_, hpayload⟩
      rw [hold, offerNewer, if_neg hle]
    · rcases offerNewer_cases Fact.version w.held f with hold | hnew
      · obtain ⟨d, hd, hown⟩ := h.own g (hold.trans hg)
        exact ⟨d, List.mem_cons_of_mem _ hd, hown⟩
      · cases hnew.symm.trans (Option.some.inj hg)
        exact ⟨_, List.mem_cons_self, rfl, .inl rfl⟩
  · rename_i hwaiting
    have hgiven : ∀ f, w.held = some f → ∃ g ∈ w.delivered, g.version = f.version ∧
        f.payload = g.payload := by simpa [hwaiting] using h.own
    refine ⟨fun payload hphase => ?_, fun f hf => ?_⟩
    · cases hheld : w.held <;> simp_all
    · obtain ⟨g, hg, hversion, hpayload⟩ := hgiven f hf
      exact ⟨g, hg, hversion, .inl hpayload⟩
  · rename_i payload hphase
    refine ⟨fun _ hphase => (by cases hphase), fun f hf => ?_⟩
    obtain ⟨old, hold, rfl⟩ := Option.map_eq_some_iff.mp hf
    obtain ⟨g, hg, hversion, hpayload⟩ := h.own old hold
    obtain ⟨read, hread, hsame⟩ := h.read payload hphase
    obtain rfl := Option.some.inj (hold.symm.trans hread)
    -- What was read is still held, and no update has touched it.
    have hgiven : old.payload = g.payload := by simpa [hphase] using hpayload
    refine ⟨g, hg, hversion, ?_⟩
    rw [← hsame]
    cases hnew : transform old.payload with
    | none => exact .inl hgiven
    | some new => exact .inr ⟨rfl, hgiven ▸ hnew⟩

/-- A run in which the row is not overtaken between its read and its update mixes no
versions. -/
theorem unmixed_of_quiet (trace : List Action)
    (hquiet : Along (step transform) (fun w a => quiet w a) {} trace)
    (hrun : run (step transform) {} trace = some v) : Unmixed transform v := by
  have hempty : Inv transform {} := ⟨fun _ h => (by cases h), fun _ h => (by cases h)⟩
  have hinv := run_invariant (fun _ _ _ => Inv.step) hempty hquiet hrun
  intro f hf
  obtain ⟨g, hg, hversion, hpayload⟩ := hinv.own f hf
  exact ⟨g, hg, hversion, hpayload.imp_right And.right⟩

def assetFact (version : Int) (payload : String) : Fact :=
  ⟨"acme", "asset", "a1", version, payload, 0, false⟩

/-- A transform that takes payloads to a new shape, and refuses the empty one. -/
def reshaped (payload : String) : Option String :=
  if payload = "" then none else some ("v2:" ++ payload)

def redelivered : List Action :=
  [.upsert (assetFact 1 "p"), .scan, .upsert (assetFact 1 "p"), .update]

theorem redelivered_unmixed :
    ∃ v, run (step reshaped) {} redelivered = some v ∧ Unmixed reshaped v :=
  ⟨_, rfl, unmixed_of_quiet redelivered (by decide) rfl⟩

/-- The update of a fact that was overtaken puts the transform of the older payload under the
newer version. -/
theorem overtaken_asset_mixed :
    ∃ v, run (step reshaped) {} [.upsert (assetFact 1 "p"), .scan, .upsert (assetFact 2 "q"),
        .update] = some v ∧ ¬ Unmixed reshaped v := by
  refine ⟨_, rfl, fun h => ?_⟩
  obtain ⟨g, hg, hversion, hpayload⟩ := h _ rfl
  simp only [List.mem_cons, List.not_mem_nil, or_false] at hg
  rcases hg with rfl | rfl
  · exact absurd hpayload (by decide)
  · exact absurd hversion (by decide)

end Fabriq.Analytics.Reproject
