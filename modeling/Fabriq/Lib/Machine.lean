import Mathlib.Data.List.Basic

namespace Fabriq.Lib.Machine

open List

variable {State Action : Type*}

/-- Take the actions of a list in order.  The run is `none` as soon as one of
them is not enabled in the state it is taken from. -/
def run (step : State → Action → Option State) : State → List Action → Option State
  | s, [] => some s
  | s, a :: rest => (step s a).bind fun t => run step t rest

/-- Every action of a list meets `ok` in the state the run takes it from. -/
def Along (step : State → Action → Option State) (ok : State → Action → Prop) :
    State → List Action → Prop
  | _, [] => True
  | s, a :: rest => ok s a ∧ ∀ t, step s a = some t → Along step ok t rest

instance decidableAlong {step : State → Action → Option State}
    {ok : State → Action → Prop} [∀ s a, Decidable (ok s a)] :
    ∀ s trace, Decidable (Along step ok s trace)
  | _, [] => isTrue trivial
  | s, a :: rest =>
    match hstep : step s a with
    | none => decidable_of_iff (ok s a)
        ⟨fun hok => ⟨hok, fun t ht => by simp [hstep] at ht⟩, And.left⟩
    | some t =>
      have : Decidable (Along step ok t rest) := decidableAlong t rest
      decidable_of_iff (ok s a ∧ Along step ok t rest)
        ⟨fun h => ⟨h.1, fun u hu => by
          have htu : t = u := by simpa [hstep] using hu
          exact htu ▸ h.2⟩, fun h => ⟨h.1, h.2 t hstep⟩⟩

variable {Inv : State → Prop} {a : Action} {first second trace : List Action} {keep : Action → Bool}
  {ok : State → Action → Prop} {s u : State} {step : State → Action → Option State}

theorem run_cons_eq_some {rest : List Action} :
    run step s (a :: rest) = some u ↔ ∃ t, step s a = some t ∧ run step t rest = some u := by
  simp only [run, Option.bind_eq_some_iff]

theorem run_append : run step s (first ++ second) = some u ↔
      ∃ t, run step s first = some t ∧ run step t second = some u := by
  induction first generalizing s with
  | nil => simp [run]
  | cons a rest ih =>
    simp only [cons_append, run_cons_eq_some, ih]
    constructor
    · rintro ⟨t, hstep, v, hfirst, hsecond⟩
      exact ⟨v, ⟨t, hstep, hfirst⟩, hsecond⟩
    · rintro ⟨v, ⟨t, hstep, hfirst⟩, hsecond⟩
      exact ⟨t, hstep, v, hfirst, hsecond⟩

theorem along_append : Along step ok s (first ++ second) ↔
      Along step ok s first ∧ ∀ t, run step s first = some t → Along step ok t second := by
  induction first generalizing s with
  | nil => simp [Along, run]
  | cons a rest ih =>
    simp only [cons_append, Along, ih, run_cons_eq_some]
    constructor
    · rintro ⟨hok, h⟩
      refine ⟨⟨hok, fun t ht => (h t ht).1⟩, ?_⟩
      rintro u ⟨t, ht, hu⟩
      exact (h t ht).2 u hu
    · rintro ⟨⟨hok, hrest⟩, h⟩
      exact ⟨hok, fun t ht => ⟨hrest t ht, fun u hu => h u ⟨t, ht, hu⟩⟩⟩

theorem run_concat {init : List Action} :
    run step s (init ++ [a]) = some u ↔ ∃ t, run step s init = some t ∧ step t a = some u := by
  simp [run_append, run]

theorem run_filter
    (hskip : ∀ s a, keep a = false → step s a = some s) (s : State) (trace : List Action) :
    run step s (trace.filter keep) = run step s trace := by
  induction trace generalizing s with
  | nil => rfl
  | cons a rest ih =>
    cases hkeep : keep a with
    | true =>
      rw [filter_cons_of_pos hkeep, run, run]
      exact congrArg _ (funext fun t => ih t)
    | false =>
      rw [filter_cons_of_neg (by simp [hkeep]), run, hskip s a hkeep, ih]
      rfl

/-- An invariant that every admissible step preserves holds at the end of every
run all of whose steps are admissible. -/
theorem run_invariant (hstep : ∀ s a t, Inv s → ok s a → step s a = some t → Inv t)
    {s t : State} {trace : List Action}
    (hinv : Inv s) (hok : Along step ok s trace) (hrun : run step s trace = some t) : Inv t := by
  induction trace generalizing s with
  | nil =>
    have hst : s = t := by simpa [run] using hrun
    exact hst ▸ hinv
  | cons a rest ih =>
    obtain ⟨u, hu, hrest⟩ := run_cons_eq_some.mp hrun
    exact ih (hstep s a u hinv hok.1 hu) (hok.2 u hu) hrest

theorem along_true : Along step (fun _ _ => True) s trace := by
  induction trace generalizing s with
  | nil => trivial
  | cons a rest ih => exact ⟨trivial, fun t _ => ih⟩

theorem along_of_forall {ok : Action → Prop} (h : ∀ a ∈ trace, ok a) : Along step
    (fun _ a => ok a) s trace := by
  induction trace generalizing s with
  | nil => trivial
  | cons a rest ih =>
    exact ⟨h a mem_cons_self, fun t _ => ih fun b hb => h b (mem_cons_of_mem _ hb)⟩

theorem run_preserves (hstep : ∀ s a t, Inv s → step s a = some t → Inv t)
    {s t : State} {trace : List Action} (hinv : Inv s) (hrun : run step s trace = some t) : Inv t :=
  run_invariant (fun s a t h _ => hstep s a t h) hinv along_true hrun

section

variable {α : Type*} {P : α → Prop} {entries : List α} {new : α}

theorem forall_mem_set {i : Nat} (h : ∀ x ∈ entries, P x) (hnew : P new) :
    ∀ x ∈ entries.set i new, P x := by
  intro x hx
  rcases mem_or_eq_of_mem_set hx with hold | rfl
  · exact h x hold
  · exact hnew

theorem forall_mem_concat (h : ∀ x ∈ entries, P x) (hnew : P new) :
    ∀ x ∈ entries ++ [new], P x :=
  forall_mem_append.mpr ⟨h, forall_mem_singleton.mpr hnew⟩

end

/-- A second machine follows a run of the first without the actions that are not kept, when those
change nothing that relates the two. -/
theorem run_filter_refines {R : State → State → Prop}
    (hkeep : ∀ s v a t, R s v → ok s a → keep a → step s a = some t →
      ∃ u, step v a = some u ∧ R t u)
    (hskip : ∀ s v a t, R s v → ok s a → keep a = false → step s a = some t → R t v)
    {s v t : State} {trace : List Action} (hR : R s v) (hok : Along step ok s trace)
    (hrun : run step s trace = some t) : ∃ u, run step v (trace.filter keep) = some u ∧ R t u := by
  induction trace generalizing s v with
  | nil =>
    have hst : s = t := by simpa [run] using hrun
    exact ⟨v, rfl, hst ▸ hR⟩
  | cons a rest ih =>
    obtain ⟨s', hs', hrest⟩ := run_cons_eq_some.mp hrun
    cases ha : keep a with
    | true =>
      obtain ⟨v', hv', hR'⟩ := hkeep s v a s' hR hok.1 ha hs'
      obtain ⟨u, hu, hRu⟩ := ih hR' (hok.2 s' hs') hrest
      rw [filter_cons_of_pos ha]
      exact ⟨u, run_cons_eq_some.mpr ⟨v', hv', hu⟩, hRu⟩
    | false =>
      rw [filter_cons_of_neg (by simp [ha])]
      exact ih (hskip s v a s' hR hok.1 ha hs') (hok.2 s' hs') hrest

/-- A machine whose every step an abstract function follows is related to what the
function makes of the whole run. -/
theorem run_refines {Abs : Type*} {next : Abs → Action → Abs} {ok : Action → Prop}
    {R : Abs → State → Prop} (hstep : ∀ x s a t, ok a → R x s → step s a = some t → R (next x a) t)
    {x : Abs} {s t : State} {trace : List Action} (hR : R x s) (hok : ∀ a ∈ trace, ok a)
    (hrun : run step s trace = some t) : R (trace.foldl next x) t := by
  induction trace generalizing x s with
  | nil =>
    have hst : s = t := by simpa [run] using hrun
    exact hst ▸ hR
  | cons a rest ih =>
    obtain ⟨u, hu, hrest⟩ := run_cons_eq_some.mp hrun
    refine ih (hstep x s a u (hok a mem_cons_self) hR hu) (fun b hb => ?_) hrest
    exact hok b (mem_cons_of_mem _ hb)

end Fabriq.Lib.Machine
