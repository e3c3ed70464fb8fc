import Fabriq.Lib.Machine
import Fabriq.Live.Types

namespace Fabriq.Live.Overflow

open Lib.Machine Live.Types List

/-- A delta on its way to a subscriber, with the number of the `send` it comes from. -/
structure Frame where
  seq : Nat
  delta : LiveDelta

def gatewayBuffer : Nat := 64

/-- One subscriber of a view: its channel `out`, what its reader has taken, and the way through
the delta bus and the gateway's channel to the client.  `retrying` is a delta that found the
channel full and whose reset has not been offered yet. -/
structure State where
  sent : Nat
  retrying : Option (Nat × Int)
  out : List Frame
  taken : List Frame
  bus : List Frame
  inbox : List Frame
  received : List Frame
  dropped : List Nat
  lost : List Nat

def start : State :=
  ⟨0, none, [], [], [], [], [], [], []⟩

inductive Action
  /-- The first `select` of `view.send`. -/
  | send (d : LiveDelta)
  /-- The second one, on the reset. -/
  | retry
  | take
  /-- One round of `Gateway.Run`. -/
  | demux
  | receive

def overflowReset (time : Int) : LiveDelta :=
  { op := .reset, time := time }

def step (buffer : Nat) (s : State) : Action → Option State
  | .send d =>
    if s.retrying.isSome then none
    else if s.out.length < buffer then
      some { s with sent := s.sent + 1, out := s.out ++ [⟨s.sent, d⟩] }
    else
      some { s with
        sent := s.sent + 1
        retrying := some (s.sent, d.time)
        dropped := s.sent :: s.dropped }
  | .retry =>
    s.retrying.map fun r =>
      if s.out.length < buffer then
        { s with retrying := none, out := s.out ++ [⟨r.1, overflowReset r.2⟩] }
      else { s with retrying := none }
  | .take =>
    match s.out with
    | [] => none
    | x :: rest => some { s with out := rest, taken := s.taken ++ [x], bus := s.bus ++ [x] }
  | .demux =>
    match s.bus with
    | [] => none
    | x :: rest =>
      if s.inbox.length < gatewayBuffer then
        some { s with bus := rest, inbox := s.inbox ++ [x] }
      else some { s with bus := rest, lost := x.seq :: s.lost }
  | .receive =>
    match s.inbox with
    | [] => none
    | x :: rest => some { s with inbox := rest, received := s.received ++ [x] }

/-- The first frame of a stream that was sent after a dropped delta is a reset. -/
def Signalled (dropped : List Nat) (stream : List Frame) : Prop :=
  ∀ k ∈ dropped, ∀ x, stream.find? (fun x => decide (k ≤ x.seq)) = some x →
    x.delta.op = .reset

/-- No overflow is silent, neither for the reader of the view's channel nor for the
client behind the gateway. -/
def NeverSilent (s : State) : Prop :=
  Signalled s.dropped s.taken ∧ Signalled (s.dropped ++ s.lost) s.received

def update (id : String) : LiveDelta :=
  { op := .update, aggId := id }

def burst : List Action :=
  [.send (update "a"), .send (update "b"), .retry, .take, .send (update "c"), .take]

theorem burst_not_neverSilent : ∃ s, run (step 1) start burst = some s ∧ ¬ NeverSilent s := by
  refine ⟨_, rfl, fun h => ?_⟩
  have hreset := h.1 1 (by decide) ⟨2, update "c"⟩ rfl
  exact absurd hreset (by decide)

/-- A reset that is offered finds room, and so does every frame at the gateway. -/
def hasRoom (buffer : Nat) (s : State) : Action → Bool
  | .retry => decide (s.out.length < buffer)
  | .demux => decide (s.inbox.length < gatewayBuffer)
  | _ => true

def State.frames (s : State) : List Frame :=
  s.taken ++ s.out

structure Inv (s : State) : Prop where
  sorted : s.frames.Pairwise fun x y => x.seq < y.seq
  below : ∀ x ∈ s.frames, x.seq < s.sent
  pending : ∀ r ∈ s.retrying, r.1 < s.sent ∧ ∀ x ∈ s.frames, x.seq < r.1
  announced : ∀ k ∈ s.dropped, (∃ x ∈ s.frames, x.seq = k ∧ x.delta.op = .reset) ∨
    ∃ r ∈ s.retrying, r.1 = k
  whole : s.received ++ s.inbox ++ s.bus = s.taken
  lossless : s.lost = []

theorem inv_start : Inv start where
  sorted := .nil
  below := forall_mem_nil _
  pending := nofun
  announced := forall_mem_nil _
  whole := rfl
  lossless := rfl

variable {buffer : Nat} {s t : State}

theorem Inv.push (h : Inv s) {x : Frame} (hframes : t.frames = s.frames ++ [x])
    (hx : ∀ y ∈ s.frames, y.seq < x.seq) (hsent : s.sent ≤ t.sent ∧ x.seq < t.sent)
    (hidle : t.retrying = none)
    (hdropped : ∀ k ∈ t.dropped, (∃ y ∈ s.frames, y.seq = k ∧ y.delta.op = .reset) ∨
      (x.seq = k ∧ x.delta.op = .reset))
    (hwhole : t.received ++ t.inbox ++ t.bus = t.taken) (hlost : t.lost = []) : Inv t where
  sorted := by
    rw [hframes]
    refine pairwise_append.mpr ⟨h.sorted, pairwise_singleton _ _, ?_⟩
    intro y hy z hz
    rw [mem_singleton.mp hz]
    exact hx y hy
  below y hy := by
    rw [hframes, mem_append, mem_singleton] at hy
    rcases hy with hy | rfl
    · exact Nat.lt_of_lt_of_le (h.below y hy) hsent.1
    · exact hsent.2
  pending := by simp [hidle]
  announced k hk := by
    left
    rw [hframes]
    rcases hdropped k hk with ⟨y, hy, hreset⟩ | hreset
    · exact ⟨y, mem_append_left _ hy, hreset⟩
    · exact ⟨x, mem_append_right _ mem_cons_self, hreset⟩
  whole := hwhole
  lossless := hlost

theorem Inv.send (h : Inv s) {d : LiveDelta} (hstep : step buffer s (.send d) = some t) :
    Inv t := by
  simp only [step] at hstep
  split_ifs at hstep with hretry hroom
  · have hidle : s.retrying = none := by simpa using hretry
    have ht := (Option.some.inj hstep).symm
    have hframes : t.frames = s.frames ++ [⟨s.sent, d⟩] := by
      rw [ht]
      exact (append_assoc _ _ _).symm
    refine h.push hframes h.below (by rw [ht]; simp) (by rw [ht]; exact hidle) ?_
      (by rw [ht]; exact h.whole) (by rw [ht]; exact h.lossless)
    intro k hk
    rw [ht] at hk
    exact .inl ((h.announced k hk).resolve_right (by simp [hidle]))
  · have hidle : s.retrying = none := by simpa using hretry
    cases hstep
    refine ⟨h.sorted, fun x hx => Nat.lt_succ_of_lt (h.below x hx), ?_, ?_, h.whole, h.lossless⟩
    · intro r hr
      cases hr
      exact ⟨Nat.lt_succ_self _, h.below⟩
    · intro k hk
      rcases mem_cons.mp hk with rfl | hk
      · exact .inr ⟨_, rfl, rfl⟩
      · exact .inl ((h.announced k hk).resolve_right (by simp [hidle]))

theorem Inv.retry (h : Inv s) (hroom : s.out.length < buffer)
    (hstep : step buffer s .retry = some t) : Inv t := by
  obtain ⟨r, hr, ht⟩ := Option.map_eq_some_iff.mp hstep
  rw [if_pos hroom, eq_comm] at ht
  obtain ⟨hlt, hbelow⟩ := h.pending r hr
  have hframes : t.frames = s.frames ++ [⟨r.1, overflowReset r.2⟩] := by
    rw [ht]
    exact (append_assoc _ _ _).symm
  refine h.push hframes hbelow (by rw [ht]; exact ⟨le_rfl, hlt⟩) (by rw [ht]) ?_
    (by rw [ht]; exact h.whole) (by rw [ht]; exact h.lossless)
  intro k hk
  rw [ht] at hk
  refine (h.announced k hk).imp_right ?_
  rintro ⟨r', hr', rfl⟩
  rw [hr] at hr'
  cases hr'
  exact ⟨rfl, rfl⟩

theorem inv_step {a : Action} (h : Inv s) (hok : hasRoom buffer s a)
    (hstep : step buffer s a = some t) : Inv t := by
  cases a with
  | send d => exact h.send hstep
  | retry => exact h.retry (of_decide_eq_true hok) hstep
  | take =>
    rw [step] at hstep
    split at hstep <;> cases hstep
    rename_i x rest hout
    have hframes : s.taken ++ [x] ++ rest = s.frames := by
      rw [State.frames, hout, append_assoc, singleton_append]
    refine ⟨?_, ?_, ?_, ?_, ?_, h.lossless⟩
    · simpa only [State.frames, hframes] using h.sorted
    · simpa only [State.frames, hframes] using h.below
    · simpa only [State.frames, hframes] using h.pending
    · simpa only [State.frames, hframes] using h.announced
    · rw [← h.whole, append_assoc _ _ [x]]
  | demux =>
    have hroom : s.inbox.length < gatewayBuffer := of_decide_eq_true hok
    simp only [step, if_pos hroom] at hstep
    split at hstep <;> cases hstep
    rename_i hbus
    refine ⟨h.sorted, h.below, h.pending, h.announced, ?_, h.lossless⟩
    rw [← h.whole, hbus]
    simp
  | receive =>
    rw [step] at hstep
    split at hstep <;> cases hstep
    rename_i hinbox
    refine ⟨h.sorted, h.below, h.pending, h.announced, ?_, h.lossless⟩
    rw [← h.whole, hinbox]
    simp

theorem eq_of_find? {frames stream : List Frame} {x y : Frame}
    (hsorted : frames.Pairwise fun x y => x.seq < y.seq) (hstream : stream <+: frames)
    (hy : y ∈ frames)
    (hfind : stream.find? (fun x => decide (y.seq ≤ x.seq)) = some x) : x = y := by
  obtain ⟨hle, before, after, rfl, hbefore⟩ := List.find?_eq_some_iff_append.mp hfind
  obtain ⟨rest, rfl⟩ := hstream
  rw [append_assoc, cons_append, mem_append, mem_cons] at hy
  rcases hy with hy | hy | hy
  · exact absurd (hbefore y hy) (by simp)
  · exact hy.symm
  · rw [append_assoc, cons_append] at hsorted
    have hlt := (pairwise_cons.mp (pairwise_append.mp hsorted).2.1).1 y hy
    exact absurd (of_decide_eq_true hle) (Nat.not_le.mpr hlt)

theorem Inv.signalled (h : Inv s) {stream : List Frame} (hstream : stream <+: s.frames) :
    Signalled s.dropped stream := by
  intro k hk x hfind
  rcases h.announced k hk with ⟨y, hy, rfl, hreset⟩ | ⟨r, hr, rfl⟩
  · rwa [eq_of_find? h.sorted hstream hy hfind]
  · -- The reset is still to be offered, so nothing sent later has been read.
    have hx : x ∈ s.frames := hstream.subset (mem_of_find?_eq_some hfind)
    have hle := List.find?_some hfind
    exact absurd (of_decide_eq_true hle) (Nat.not_le.mpr ((h.pending r hr).2 x hx))

/-- In every run with that room no overflow is silent. -/
theorem neverSilent_of_hasRoom (buffer : Nat) (trace : List Action) {s : State}
    (hok : Along (step buffer) (fun s a => hasRoom buffer s a = true) start trace)
    (hrun : run (step buffer) start trace = some s) : NeverSilent s := by
  have h : Inv s := run_invariant (fun _ _ _ => inv_step) inv_start hok hrun
  constructor
  · exact h.signalled (prefix_append _ _)
  · rw [h.lossless, append_nil]
    refine h.signalled ?_
    rw [State.frames, ← h.whole, append_assoc, append_assoc]
    exact prefix_append _ _

def drainedBurst : List Action :=
  [.send (update "a"), .send (update "b"), .take, .retry, .take, .demux, .receive, .demux,
    .receive]

theorem neverSilent_drainedBurst :
    ∃ s, run (step 1) start drainedBurst = some s ∧ s.dropped = [1] ∧ NeverSilent s :=
  ⟨_, rfl, rfl, neverSilent_of_hasRoom 1 drainedBurst (by decide) rfl⟩

end Fabriq.Live.Overflow
