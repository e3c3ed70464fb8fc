import Fabriq.Lib.Machine
import Fabriq.Live.Types

namespace Fabriq.Live.Reanchor

open Lib.Machine Live.Types List Option

/-- What a delta of the subscription's stream comes from: the view that was attached as
the `epoch`-th, or the snapshot of that attach. -/
inductive Origin
  | view (epoch : Nat)
  | snapshot (epoch : Nat)
  deriving DecidableEq

def Origin.epoch : Origin → Nat
  | .view epoch => epoch
  | .snapshot epoch => epoch

structure Item where
  origin : Origin
  delta : LiveDelta

def enterRow (r : Row) (i : Nat) : LiveDelta where
  op := .enter
  aggId := r.aggId
  version := r.version
  row := r.raw
  oldIndex := -1
  newIndex := i
  cursor := r.cursor

/-- `sendSnapshot`: a reset, then one enter for each row. -/
def snapshotItems (epoch : Nat) (rows : List Row) : List Item :=
  ⟨.snapshot epoch, { op := .reset }⟩ ::
    rows.zipIdx.map fun r => ⟨.snapshot epoch, enterRow r.1 r.2⟩

/-- Who reads the delta channel: the engine's caller, which gets the snapshot when `Reanchor`
returns, or a shard's pump, which sends what it takes while `handleControl` sends the snapshot. -/
inductive Reader
  | caller
  | pump
  deriving DecidableEq

inductive Phase
  | idle
  | detached
  /-- Attached to the new view, with this much of the snapshot still to be sent. -/
  | shipping (rest : List Item)

def Phase.isShipping : Phase → Bool
  | .shipping _ => true
  | _ => false

/-- One subscription: its channel, the delta in the pump's hand, and its consumer's stream.  `snaps`
records the snapshot of each attach. -/
structure State where
  snaps : Nat → List Row
  epoch : Nat
  attached : Bool
  out : List Item
  hand : Option Item
  stream : List Item
  phase : Phase

def start : State :=
  ⟨fun _ => [], 0, true, [], none, [], .idle⟩

inductive Action
  | send (d : LiveDelta)
  | take
  | put
  | detach
  | attach (rows : List Row)
  | fail
  | ship

def step (reader : Reader) (buffer : Nat) (s : State) : Action → Option State
  | .send d =>
    if s.attached then
      if s.out.length < buffer then
        some { s with out := s.out ++ [⟨.view s.epoch, d⟩] }
      else some s
    else none
  | .take =>
    match reader, s.out, s.hand with
    | .caller, x :: rest, _ => some { s with out := rest, stream := s.stream ++ [x] }
    | .pump, x :: rest, none => some { s with out := rest, hand := some x }
    | _, _, _ => none
  | .put => s.hand.map fun x => { s with hand := none, stream := s.stream ++ [x] }
  | .detach =>
    match s.phase with
    | .idle => some { s with attached := false, phase := .detached }
    | _ => none
  | .attach rows =>
    match s.phase with
    | .detached =>
      some { s with
        snaps := fun i => if i = s.epoch + 1 then rows else s.snaps i
        epoch := s.epoch + 1
        attached := true
        phase := .shipping (snapshotItems (s.epoch + 1) rows) }
    | _ => none
  | .fail =>
    match s.phase with
    | .detached => some { s with phase := .idle }
    | _ => none
  | .ship =>
    match reader, s.phase with
    | .caller, .shipping rest =>
      some { s with stream := s.stream ++ rest, phase := .idle }
    | .pump, .shipping [] => some { s with phase := .idle }
    | .pump, .shipping (x :: rest) =>
      some { s with stream := s.stream ++ [x], phase := .shipping rest }
    | _, _ => none

/-- The streams in which every switch is clean: deltas of the view attached last, and
at a switch the whole snapshot of the new one. -/
inductive Clean (snaps : Nat → List Row) : Nat → List Item → Prop
  | start : Clean snaps 0 []
  | delta {epoch : Nat} {stream : List Item} (d : LiveDelta) (h : Clean snaps epoch stream) :
      Clean snaps epoch (stream ++ [⟨.view epoch, d⟩])
  | switch {epoch next : Nat} {stream : List Item} (h : Clean snaps epoch stream)
      (hnext : epoch < next) :
      Clean snaps next (stream ++ snapshotItems next (snaps next))

/-- What the consumer has read is the beginning of a stream with clean switches. -/
def SwitchesCleanly (s : State) : Prop :=
  ∃ epoch stream, Clean s.snaps epoch stream ∧ s.stream <+: stream

variable {epoch : Nat} {snaps : Nat → List Row} {stream : List Item}

theorem epoch_snapshotItems {rows : List Row} {x : Item}
    (hx : x ∈ snapshotItems epoch rows) : x.origin.epoch = epoch := by
  rcases mem_cons.mp hx with rfl | hx
  · rfl
  · obtain ⟨r, -, rfl⟩ := List.mem_map.mp hx
    rfl

theorem Clean.ordered (h : Clean snaps epoch stream) : (∀ x ∈ stream, x.origin.epoch ≤ epoch) ∧
      stream.Pairwise fun x y => x.origin.epoch ≤ y.origin.epoch := by
  induction h with
  | start => exact ⟨forall_mem_nil _, .nil⟩
  | @delta epoch stream d _ ih =>
    constructor
    · exact Lib.Machine.forall_mem_concat ih.1 le_rfl
    · refine pairwise_append.mpr ⟨ih.2, pairwise_singleton _ _, ?_⟩
      intro x hx y hy
      rw [mem_singleton.mp hy]
      exact ih.1 x hx
  | @switch epoch next stream _ hnext ih =>
    have hall : ∀ x ∈ stream, x.origin.epoch ≤ next := fun x hx =>
      (ih.1 x hx).trans hnext.le
    constructor
    · intro x hx
      rcases mem_append.mp hx with hx | hx
      · exact hall x hx
      · exact (epoch_snapshotItems hx).le
    · refine pairwise_append.mpr ⟨ih.2, ?_, ?_⟩
      · refine pairwise_of_forall_mem_list fun x hx y hy => ?_
        rw [epoch_snapshotItems hx, epoch_snapshotItems hy]
      · intro x hx y hy
        rw [epoch_snapshotItems hy]
        exact hall x hx

theorem Clean.epoch_of_nil (h : Clean snaps epoch stream) (hnil : stream = []) : epoch = 0 := by
  cases h with
  | start => rfl
  | delta => simp at hnil
  | switch => simp [snapshotItems] at hnil

/-- The first item is of the first view, or the beginning of a snapshot. -/
theorem Clean.head (h : Clean snaps epoch stream) {x : Item} (hx : stream.head? = some x) :
    x.origin = .view 0 ∨ x.delta.op = .reset := by
  induction h with
  | start => cases hx
  | @delta epoch stream d h ih =>
    cases stream with
    | nil =>
      obtain rfl := h.epoch_of_nil rfl
      cases hx
      exact .inl rfl
    | cons y rest => exact ih hx
  | @switch epoch next stream _ _ ih =>
    cases stream with
    | nil =>
      cases hx
      exact .inr rfl
    | cons y rest => exact ih hx

def update (id : String) : LiveDelta :=
  { op := .update, aggId := id }

def leftover : List Action :=
  [.send (update "a"), .detach, .attach [], .ship, .take]

def overtaken : List Action :=
  [.detach, .attach [], .send (update "a"), .take, .put, .ship]

def isReset (x : Item) : Bool :=
  decide (x.delta.op = .reset)

/-- The channel and the pump's hand are empty when the reset is sent, and no change reaches the
new view before its snapshot is out. -/
def drained (s : State) : Action → Bool
  | .ship =>
    match s.phase with
    | .shipping (x :: _) => !isReset x || s.out.isEmpty && s.hand.isNone
    | _ => true
  | .send _ => !s.phase.isShipping
  | _ => true

theorem Clean.congr {snaps' : Nat → List Row}
    (h : Clean snaps epoch stream) (heq : ∀ i ≤ epoch, snaps' i = snaps i) :
    Clean snaps' epoch stream := by
  induction h with
  | start => exact .start
  | delta d _ ih => exact .delta d (ih heq)
  | @switch epoch next stream _ hnext ih =>
    rw [← heq next le_rfl]
    exact .switch (ih fun i hi => heq i (hi.trans hnext.le)) hnext

def State.waiting (s : State) : List Item :=
  s.hand.toList ++ s.out

/-- The snapshot of the attached view is sent up to `rest`.  What waits to be read comes from the
view before it, and nothing waits once the reset is sent. -/
structure Switching (s : State) (rest : List Item) (epoch : Nat) (base sent : List Item) :
    Prop where
  clean : Clean s.snaps epoch base
  lt : epoch < s.epoch
  stream : s.stream = base ++ sent
  snapshot : sent ++ rest = snapshotItems s.epoch (s.snaps s.epoch)
  old : ∀ x ∈ s.waiting, x.origin = .view epoch
  drained : sent ≠ [] → s.waiting = []

structure Inv (s : State) : Prop where
  settled : s.phase.isShipping = false →
    Clean s.snaps s.epoch s.stream ∧ ∀ x ∈ s.waiting, x.origin = .view s.epoch
  shipping : ∀ rest, s.phase = .shipping rest → ∃ epoch base sent, Switching s rest epoch base sent

theorem inv_start : Inv start where
  settled _ := ⟨.start, by simp [start, State.waiting]⟩
  shipping := nofun

variable {reader : Reader} {buffer : Nat} {s t : State}

theorem Inv.switchesCleanly (h : Inv s) : SwitchesCleanly s := by
  cases hphase : s.phase with
  | idle | detached => exact ⟨_, _, (h.settled (by rw [hphase]; rfl)).1, prefix_rfl⟩
  | shipping rest =>
    obtain ⟨epoch, base, sent, hswitch⟩ := h.shipping rest hphase
    refine ⟨s.epoch, _, .switch hswitch.clean hswitch.lt, ?_⟩
    rw [hswitch.stream, ← hswitch.snapshot, ← append_assoc]
    exact prefix_append _ _

theorem Clean.concat (h : Clean snaps epoch stream) {x : Item} (hx : x.origin = .view epoch) :
    Clean snaps epoch (stream ++ [x]) := by
  obtain ⟨origin, d⟩ := x
  obtain rfl : origin = .view epoch := hx
  exact .delta d h

theorem Inv.deliver (h : Inv s) {x : Item} (hx : x ∈ s.waiting)
    (hrest : ∀ y ∈ t.waiting, y ∈ s.waiting)
    (ht : t = { s with hand := t.hand, out := t.out, stream := s.stream ++ [x] }) : Inv t := by
  rw [ht] at hrest ⊢
  refine ⟨fun hidle => ?_, fun rest hphase => ?_⟩
  · obtain ⟨hclean, hcurrent⟩ := h.settled hidle
    exact ⟨hclean.concat (hcurrent x hx), fun y hy => hcurrent y (hrest y hy)⟩
  · obtain ⟨epoch, base, sent, hswitch⟩ := h.shipping rest hphase
    -- A delta is still there to be read, so the reset has not been sent.
    obtain rfl : sent = [] := by
      by_contra hsent
      rw [hswitch.drained hsent] at hx
      cases hx
    refine ⟨epoch, base ++ [x], [], hswitch.clean.concat (hswitch.old x hx), hswitch.lt, ?_,
      hswitch.snapshot, fun y hy => hswitch.old y (hrest y hy), fun hne => absurd rfl hne⟩
    simp only [hswitch.stream, append_nil]

theorem Inv.attach (h : Inv s) {rows : List Row} (hphase : s.phase = .detached)
    (ht : t = { s with
      snaps := fun i => if i = s.epoch + 1 then rows else s.snaps i
      epoch := s.epoch + 1
      attached := true
      phase := .shipping (snapshotItems (s.epoch + 1) rows) }) : Inv t := by
  obtain ⟨hclean, hcurrent⟩ := h.settled (by rw [hphase]; rfl)
  subst ht
  refine ⟨nofun, fun rest hrest => ?_⟩
  obtain rfl := Phase.shipping.inj hrest
  refine ⟨s.epoch, s.stream, [], hclean.congr fun i hi => ?_, Nat.lt_succ_self _, ?_, ?_,
    hcurrent, fun hne => absurd rfl hne⟩
  · simp only [if_neg (Nat.ne_of_lt (Nat.lt_succ_of_le hi))]
  · rw [append_nil]
  · simp

theorem Switching.waiting_eq_nil {rest base sent : List Item}
    (h : Switching s rest epoch base sent) (hphase : s.phase = .shipping rest)
    (hok : Reanchor.drained s .ship) : s.waiting = [] := by
  cases sent with
  | cons y sent => exact h.drained (cons_ne_nil y sent)
  | nil =>
    -- Nothing is sent yet, so the next item is the reset.
    have hrest : rest = snapshotItems s.epoch (s.snaps s.epoch) := h.snapshot
    rw [snapshotItems] at hrest
    simp only [Reanchor.drained, hphase, hrest, isReset, decide_true, Bool.not_true,
      Bool.false_or, Bool.and_eq_true, List.isEmpty_iff, isNone_iff_eq_none] at hok
    rw [State.waiting, hok.1, hok.2]
    rfl

theorem Switching.finished {rest base sent : List Item} (h : Switching s rest epoch base sent)
    (hempty : s.waiting = []) : Inv { s with phase := .idle, stream := s.stream ++ rest } := by
  refine ⟨fun _ => ⟨?_, fun x hx => ?_⟩, nofun⟩
  · simp only [h.stream, append_assoc, h.snapshot]
    exact .switch h.clean h.lt
  · change x ∈ s.waiting at hx
    rw [hempty] at hx
    cases hx

theorem inv_step {a : Action} (h : Inv s) (hok : drained s a)
    (hstep : step reader buffer s a = some t) : Inv t := by
  revert hok hstep
  fun_cases step reader buffer s a <;> intro hok hstep <;> try cases hstep
  · have hidle : s.phase.isShipping = false := by simpa [drained] using hok
    obtain ⟨hclean, hcurrent⟩ := h.settled hidle
    refine ⟨fun _ => ⟨hclean, fun x hx => ?_⟩, fun rest hphase => ?_⟩
    · rw [State.waiting, ← append_assoc, mem_append, mem_singleton] at hx
      rcases hx with hx | rfl
      · exact hcurrent x hx
      · rfl
    · rw [show s.phase = .shipping rest from hphase] at hidle
      cases hidle
  · exact h
  · rename_i x rest hout
    refine h.deliver (x := x) (by simp [State.waiting, hout]) (fun y hy => ?_) rfl
    rw [State.waiting, hout]
    exact mem_append.mpr ((mem_append.mp hy).imp_right (mem_cons_of_mem x))
  · rename_i x rest hhand hout
    have hsame : State.waiting { s with out := rest, hand := some x } = s.waiting := by
      simp [State.waiting, hout, hhand]
    refine ⟨fun hidle => hsame ▸ h.settled hidle, fun rest hphase => ?_⟩
    obtain ⟨epoch, base, sent, hswitch⟩ := h.shipping rest hphase
    exact ⟨epoch, base, sent, hswitch.clean, hswitch.lt, hswitch.stream, hswitch.snapshot,
      hsame ▸ hswitch.old, hsame ▸ hswitch.drained⟩
  · obtain ⟨x, hx, rfl⟩ := map_eq_some_iff.mp hstep
    refine h.deliver (x := x) (by simp [State.waiting, hx]) (fun y hy => ?_) rfl
    exact mem_append_right _ (by simpa [State.waiting] using hy)
  · rename_i hphase
    exact ⟨fun _ => h.settled (by rw [hphase]; rfl), nofun⟩
  · rename_i hphase
    exact h.attach hphase rfl
  · rename_i hphase
    exact ⟨fun _ => h.settled (by rw [hphase]; rfl), nofun⟩
  · rename_i hphase
    obtain ⟨epoch, base, sent, hswitch⟩ := h.shipping _ hphase
    exact hswitch.finished (hswitch.waiting_eq_nil hphase hok)
  · rename_i hphase
    obtain ⟨epoch, base, sent, hswitch⟩ := h.shipping _ hphase
    simpa using hswitch.finished (hswitch.waiting_eq_nil hphase hok)
  · rename_i x rest hphase
    obtain ⟨epoch, base, sent, hswitch⟩ := h.shipping _ hphase
    have hempty := hswitch.waiting_eq_nil hphase hok
    refine ⟨nofun, fun rest' hrest => ?_⟩
    obtain rfl := Phase.shipping.inj hrest
    refine ⟨epoch, base, sent ++ [x], hswitch.clean, hswitch.lt, ?_, ?_, hswitch.old,
      fun _ => hempty⟩
    · simp only [hswitch.stream, append_assoc]
    · simpa using hswitch.snapshot

def slidRow : Row :=
  ⟨"b", 1, ⟨[.str "b"]⟩, "", none⟩

/-- The last delta of the old view is delivered after the attach, ahead of the reset. -/
def drainedSwitch : List Action :=
  [.send (update "a"), .take, .detach, .attach [slidRow], .put, .ship, .ship, .ship,
    .send (update "b"), .take, .put]

end Fabriq.Live.Reanchor
