import Fabriq.Sweep.Engine

/-!
What the passes of the engine drop from its table, next to what their scans read.
-/

namespace Fabriq.Sweep.Decay

open Engine Lib Lib.Assoc Lib.Machine List Option

/-- The engine, the eligible tenants each pass has read from the catalog, and the passes whose
scan ended with an error of the catalog. -/
structure Scans where
  world : World
  listed : List (Nat × String)
  failed : List Nat

def start : Scans :=
  ⟨newEngine, [], []⟩

inductive Event
  | engine (a : Action)
  | outage (p : Nat)

def step (cfg : Config) (s : Scans) : Event → Option Scans
  | .engine a => (Engine.step cfg s.world a).map fun w =>
    { s with
      world := w
      listed := match a with
        | .list p e => if eligible cfg e then (p, e.tenantId) :: s.listed else s.listed
        | _ => s.listed }
  -- the scan breaks off, and `Pass` goes on to the decay
  | .outage p => (Engine.step cfg s.world (.endScan p)).map fun w =>
    { s with world := w, failed := p :: s.failed }

/-- A tenant's state is dropped only by a pass that completed a scan in which the tenant was not
eligible. -/
def DecaysDeparted (cfg : Config) (s : Scans) : Prop :=
  ∀ a t, step cfg s a = some t → ∀ tenantId, (s.world.state.lookup tenantId).isSome →
    t.world.state.lookup tenantId = none →
      ∃ p, a = .engine (.finishPass p) ∧ p ∉ s.failed ∧ (p, tenantId) ∉ s.listed

/-- No page read fails, and a pass begins when those before it have finished, as in `Run`. -/
def undisturbed (s : Scans) : Event → Bool
  | .outage _ => false
  | .engine (.beginPass _) => s.world.passes.all (·.phase == .finished)
  | .engine _ => true

def unfinished (w : World) (p : Nat) : Bool :=
  w.passes[p]?.any (·.phase != .finished)

def seen (w : World) (tenantId : String) : Bool :=
  (w.state.lookup tenantId).any TenantState.seen

/-- The table `v` has the states of `w`, and those that were seen are seen. -/
def Keeps (w v : World) : Prop :=
  ∀ tenantId, ((w.state.lookup tenantId).isSome → (v.state.lookup tenantId).isSome) ∧
    (seen w tenantId → seen v tenantId)

section

variable {cfg : Config} {w w' : World} {a : Action} {tenantId : String}

theorem keeps_setState {st : TenantState}
    (hseen : seen w tenantId → st.seen) : Keeps w (w.setState tenantId st) := by
  intro t
  simp only [seen, World.setState, lookup_put]
  split_ifs with ht
  · exact ⟨fun _ => rfl, fun h => hseen (ht ▸ h)⟩
  · exact ⟨id, id⟩

theorem seen_getD (h : seen w tenantId) : ((w.state.lookup tenantId).getD .new).seen := by
  rw [seen] at h
  cases hst : w.state.lookup tenantId <;> simp_all

theorem seen_finishSweep {compact : Bool} {res : Option Result} {done jitter : Nat}
    {st : TenantState} : (finishSweep cfg compact res done jitter st).seen = st.seen := by
  cases res with
  | none => rfl
  | some r =>
    simp only [finishSweep]
    split_ifs <;> rfl

theorem keeps_visit (p now : Nat) : Keeps w (w.visit cfg p now tenantId) ∧
    seen (w.visit cfg p now tenantId) tenantId := by
  simp only [World.visit]
  split
  · exact ⟨keeps_setState fun _ => rfl, by simp [seen, World.setState, lookup_put]⟩
  · exact ⟨keeps_setState (w := w) fun _ => rfl, by simp [seen, World.setState, lookup_put]⟩

theorem lookup_decay {m : List (String × TenantState)} (h : (m.lookup tenantId).any (·.seen)) :
    (m.filter fun e => e.2.seen || e.2.inFlight).lookup tenantId = m.lookup tenantId := by
  induction m with
  | nil => rfl
  | cons e rest ih =>
    obtain ⟨k, st⟩ := e
    by_cases hk : tenantId = k
    · simp_all
    · have hne : (tenantId == k) = false := by simpa using hk
      simp only [List.lookup_cons, hne] at h
      rw [filter_cons]
      split_ifs <;> simp [List.lookup_cons, hne, ih h]

structure Effect (w : World) (a : Action) (w' : World) : Prop where
  length : w.passes.length ≤ w'.passes.length
  opened : ∀ q < w.passes.length, unfinished w' q → unfinished w q
  seen : (∀ now, a ≠ .beginPass now) → ∀ t, seen w t → seen w' t
  kept : (∀ p, a ≠ .finishPass p) → ∀ t, (w.state.lookup t).isSome → (w'.state.lookup t).isSome

theorem Keeps.effect (h : Keeps w w') (hpasses : w'.passes = w.passes) : Effect w a w' :=
  ⟨by simp [hpasses], fun q _ => by simp [unfinished, hpasses], fun _ t => (h t).2,
    fun _ t => (h t).1⟩

theorem Effect.finishes (h : Effect w a w') (hsome : (w.state.lookup tenantId).isSome)
    (hnone : w'.state.lookup tenantId = none) : ∃ p, a = .finishPass p := by
  by_contra hne
  have hkept := h.kept (not_exists.mp hne) tenantId hsome
  rw [hnone] at hkept
  cases hkept

theorem unfinished_setPass {p q : Nat} {ps : Pass} {phase : PassPhase}
    (hps : w.passes[p]? = some ps) (hphase : ps.phase ≠ .finished)
    (h : unfinished (w.setPass p ps phase) q) : unfinished w q := by
  by_cases hq : p = q
  · subst hq
    simp [unfinished, hps, hphase]
  · simpa [unfinished, World.setPass, getElem?_set_ne hq] using h

theorem effect_of_step (hstep : Engine.step cfg w a = some w') : Effect w a w' := by
  revert hstep
  fun_cases Engine.step cfg w a <;> rintro ⟨⟩
  · exact Keeps.effect (keeps_setState (w := w) seen_getD) rfl
  · refine ⟨by simp, fun q hq h => ?_, fun h => absurd rfl (h _), fun _ t => ?_⟩
    · simpa [unfinished, getElem?_append_left hq] using h
    · simp [lookup_mapValues]
  · exact (keeps_visit _ _).1.effect (by rw [World.visit]; split <;> rfl)
  · exact Keeps.effect (fun _ => ⟨id, id⟩) rfl
  · rename_i hps _
    exact ⟨by simp [World.setPass], fun q _ => unfinished_setPass hps (by simp), fun _ _ => id,
      fun _ _ => id⟩
  · rename_i hps _
    refine ⟨by simp [World.setPass], fun q _ => unfinished_setPass hps (by simp), fun _ t h => ?_,
      fun h => absurd rfl (h _)⟩
    rw [Decay.seen] at h ⊢
    exact (lookup_decay h).symm ▸ h
  · exact Keeps.effect (fun _ => ⟨id, id⟩) rfl
  · exact Keeps.effect (fun _ => ⟨id, id⟩) rfl
  · rename_i st hst
    refine Keeps.effect (keeps_setState (w := w) fun h => ?_) rfl
    rw [seen_finishSweep]
    simpa [Decay.seen, hst] using h
  · exact Keeps.effect (fun _ => ⟨id, id⟩) rfl

end

structure Inv (s : Scans) : Prop where
  readable : s.failed = []
  seen : ∀ e ∈ s.listed, e.1 < s.world.passes.length ∧
    (unfinished s.world e.1 → seen s.world e.2)

variable {cfg : Config} {s t : Scans} {a : Event}

theorem inv_step (h : Inv s) (hok : undisturbed s a) (hstep : step cfg s a = some t) : Inv t := by
  cases a with
  | outage p => cases hok
  | engine a =>
    obtain ⟨w, hw, rfl⟩ := map_eq_some_iff.mp hstep
    have heffect := effect_of_step hw
    have hold : ∀ e ∈ s.listed, e.1 < w.passes.length ∧ (unfinished w e.1 → Decay.seen w e.2) := by
      intro e he
      obtain ⟨hlt, hseen⟩ := h.seen e he
      refine ⟨Nat.lt_of_lt_of_le hlt heffect.length, fun hopen => ?_⟩
      have hopen := heffect.opened _ hlt hopen
      refine heffect.seen ?_ _ (hseen hopen)
      rintro now rfl
      obtain ⟨ps, hps, hphase⟩ := any_eq_true _ _ |>.mp hopen
      simp_all [undisturbed, mem_of_getElem? hps]
    refine ⟨h.readable, ?_⟩
    cases a with
    | list p e =>
      dsimp only
      split_ifs with heligible
      · refine forall_mem_cons.mpr ⟨?_, hold⟩
        simp only [Engine.step, heligible, if_true] at hw
        split at hw
        · rename_i hps
          split_ifs at hw
          cases hw
          have hlt := (List.getElem?_eq_some_iff.mp hps).1
          exact ⟨Nat.lt_of_lt_of_le hlt heffect.length, fun _ => (keeps_visit _ _).2⟩
        · cases hw
      · exact hold
    | _ => exact hold

theorem Inv.decaysDeparted (h : Inv s) : DecaysDeparted cfg s := by
  intro a t hstep tenantId hsome hnone
  cases a with
  | outage p =>
    obtain ⟨w, hw, rfl⟩ := map_eq_some_iff.mp hstep
    obtain ⟨_, ⟨⟩⟩ := (effect_of_step hw).finishes hsome hnone
  | engine a =>
    obtain ⟨w, hw, rfl⟩ := map_eq_some_iff.mp hstep
    have heffect := effect_of_step hw
    obtain ⟨p, rfl⟩ := heffect.finishes hsome hnone
    refine ⟨p, rfl, by simp [h.readable], fun hlisted => ?_⟩
    have hopen : unfinished s.world p := by
      simp only [Engine.step] at hw
      split at hw
      · rename_i hps
        simp [unfinished, hps]
      · cases hw
    have hseen := heffect.seen (by simp) tenantId ((h.seen _ hlisted).2 hopen)
    rw [Decay.seen, hnone] at hseen
    cases hseen

/-- In every such run a pass drops the states of departed tenants only. -/
theorem decays_departed {cfg : Config} {trace : List Event} {s : Scans}
    (hok : Along (step cfg) (fun s a => undisturbed s a) start trace)
    (hrun : run (step cfg) start trace = some s) : DecaysDeparted cfg s := by
  have hstart : Inv start := ⟨rfl, nofun⟩
  exact (run_invariant (fun _ _ _ => inv_step) hstart hok hrun).decaysDeparted

def onePass : List Event :=
  [.engine (.beginPass 10), .engine (.list 0 acme), .engine (.start 0),
    .engine (.complete 0 (some idle) 12 5), .engine (.endScan 0), .engine (.finishPass 0),
    .engine (.beginPass 13)]

def suspended : List Event :=
  onePass ++ [.engine (.list 1 { acme with state := .suspended }), .engine (.endScan 1)]

theorem decays_departed_suspended :
    ∃ s, run (step config) start suspended = some s ∧ DecaysDeparted config s :=
  ⟨_, rfl, decays_departed (by decide : Along _ _ start suspended) rfl⟩

/-- The catalog fails in the second pass, which then drops the backoff of the first. -/
theorem outage_decays :
    ∃ s, run (step config) start (onePass ++ [.outage 1]) = some s ∧
      ¬ DecaysDeparted config s := by
  refine ⟨_, rfl, fun h => ?_⟩
  obtain ⟨p, hp, hfailed, -⟩ := h (.engine (.finishPass 1)) _ rfl "acme" rfl rfl
  cases hp
  exact hfailed mem_cons_self

end Fabriq.Sweep.Decay
