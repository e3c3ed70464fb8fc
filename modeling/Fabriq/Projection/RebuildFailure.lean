import Fabriq.Projection.Rebuild

namespace Fabriq.Projection.RebuildFailure

open Projection.Rebuild

/-- What becomes of a write of the projection state: it can fail before or after it is
stored. -/
inductive Write
  | done
  | refused
  | lost
  deriving DecidableEq

def Write.store (w : Write) (before after : ProjState) : ProjState :=
  if w = .refused then before else after

structure Answers where
  wired : Bool := true
  get : Bool := true
  mark : Write := .done
  tenant : Bool := true
  drop : Bool := true
  /-- Whether the mutations of each row that the snapshot yields are derived and applied. -/
  rows : List Bool := []
  read : Bool := true
  revert : Write := .done
  flip : Write := .done
  onFlip : Bool := true

inductive Failure
  | notWired
  | get
  | inProgress
  | mark
  | tenant
  | drop
  | snapshot
  | flip
  | cutover
  deriving DecidableEq

def Answers.build (a : Answers) : Except Failure Unit :=
  if !a.tenant then .error .tenant
  else if !a.drop then .error .drop
  else if !(a.rows.all id && a.read) then .error .snapshot
  else .ok ()

/-- The state after the call, and the names of the old and the new target. -/
def rebuild (target : Nat → String) (st : ProjState) (a : Answers) :
    ProjState × Except Failure (String × String) :=
  if !a.wired then (st, .error .notWired)
  else if !a.get then (st, .error .get)
  else if st.status = .building then (st, .error .inProgress)
  else
    let marked := { st with status := .building }
    if a.mark ≠ .done then (a.mark.store st marked, .error .mark)
    else
      match a.build with
      | .error e => (a.revert.store marked { st with status := .live }, .error e)
      | .ok () =>
        let next := st.modelVersion + 1
        let flipped : ProjState := ⟨next, target next, .soaking⟩
        if a.flip ≠ .done then (a.flip.store marked flipped, .error .flip)
        else if !a.onFlip then (flipped, .error .cutover)
        else (flipped, .ok (st.targetName, target next))

/-- The stored state is the one before, readers resolve the same target, and another rebuild
finds none in progress. -/
def Unchanged (d : Deployment) (before after : ProjState) : Prop :=
  after = before ∧ liveName d after = liveName d before ∧ after.status ≠ .building

variable {st : ProjState} {a : Answers}

theorem building_ne (h : st.status ≠ .building) : { st with status := .building } ≠ st :=
  fun heq => h (congrArg ProjState.status heq).symm

theorem next_ne {name : String} {status : Status} : ⟨st.modelVersion + 1, name, status⟩ ≠ st :=
  fun heq => Nat.succ_ne_self _ (congrArg ProjState.modelVersion heq)

theorem store_eq {w : Write} {marked after : ProjState} (h : marked ≠ st) :
    w.store marked after = st ↔ w ≠ .refused ∧ after = st := by
  unfold Write.store
  split_ifs with hw <;> simp [hw, h]

/-- A rebuild that fails leaves no trace exactly if it fails before its marker is stored, or if
the projection was live, it fails before the flip and the undoing write is stored. -/
theorem failed_rebuild_unchanged_iff (d : Deployment) (target : Nat → String) (st : ProjState)
    (a : Answers) (hst : st.status ≠ .building) {e : Failure}
    (hfail : (rebuild target st a).2 = .error e) :
    Unchanged d st (rebuild target st a).1 ↔ a.wired = false ∨ a.get = false ∨ a.mark = .refused ∨
        st.status = .live ∧ a.mark = .done ∧ a.build ≠ .ok () ∧ a.revert ≠ .refused := by
  have hiff : Unchanged d st (rebuild target st a).1 ↔ (rebuild target st a).1 = st := by
    refine ⟨And.left, fun heq => ⟨heq, by rw [heq], by rw [heq]; exact hst⟩⟩
  have hlive : { st with status := .live } = st ↔ st.status = .live :=
    ⟨fun heq => (congrArg ProjState.status heq).symm, fun h => by rw [← h]⟩
  rw [hiff]
  unfold rebuild at hfail ⊢
  cases hwired : a.wired with
  | false => simp
  | true =>
    cases hget : a.get with
    | false => simp
    | true =>
      simp only [hwired, hget, hst, Bool.not_true, Bool.false_eq_true, if_false] at hfail ⊢
      cases hmark : a.mark with
      | refused => simp [Write.store]
      | lost => simp [Write.store, building_ne hst]
      | done =>
        cases hbuild : a.build with
        | error e' => simp [store_eq (building_ne hst), hlive, and_comm]
        | ok =>
          split_ifs at hfail ⊢ <;> simp_all [store_eq (building_ne hst), next_ne]

def versioned : Nat → String :=
  graphNameVersioned "acme"

theorem live_rebuild_undone :
    (rebuild versioned ⟨1, "", .live⟩ { rows := [true, false] }).2 = .error .snapshot ∧
      Unchanged plant ⟨1, "", .live⟩
        (rebuild versioned ⟨1, "", .live⟩ { rows := [true, false] }).1 :=
  ⟨rfl, (failed_rebuild_unchanged_iff plant versioned _ _ (by decide) rfl).mpr
    (.inr (.inr (.inr ⟨rfl, rfl, nofun, nofun⟩)))⟩

/-- A soak ends with a target that cannot be dropped, a flip that is not stored leaves the
marker, and a failed cutover leaves the readers on the new target. -/
theorem failed_rebuild_leaves_trace :
    (rebuild versioned ⟨1, "", .soaking⟩ { drop := false }).2 = .error .drop ∧
    ¬Unchanged plant ⟨1, "", .soaking⟩ (rebuild versioned ⟨1, "", .soaking⟩ { drop := false }).1 ∧
    (rebuild versioned ⟨1, "", .live⟩ { flip := .refused }).2 = .error .flip ∧
    ¬Unchanged plant ⟨1, "", .live⟩ (rebuild versioned ⟨1, "", .live⟩ { flip := .refused }).1 ∧
    (rebuild versioned ⟨1, "", .live⟩ { onFlip := false }).2 = .error .cutover ∧
    ¬Unchanged plant ⟨1, "", .live⟩ (rebuild versioned ⟨1, "", .live⟩ { onFlip := false }).1 :=
  ⟨rfl, fun h => absurd (congrArg ProjState.status h.1) nofun,
    rfl, fun h => h.2.2 rfl,
    rfl, fun h => absurd h.2.1 (by decide +kernel)⟩

end Fabriq.Projection.RebuildFailure
