import Fabriq.Lib.Machine
import Fabriq.Remote.Wire

/-!
`LiveHandle.Reanchor` over a bidirectional stream.  The server answers control frames in order;
its replies carry no id and reach the caller through a one-slot channel.
-/

namespace Fabriq.Remote.LiveReanchor

open Lib.Machine Remote.Wire List

variable {κ σ ε : Type}

structure Call (κ : Type) where
  id : Nat
  cursor : Option κ
  limit : Int
deriving DecidableEq

/-- The control frame of a call.  `call` is not on the wire. -/
structure Frame (κ : Type) where
  call : Nat
  cursor : Option κ
  limit : Int
deriving DecidableEq

/-- What the server computed, and the frame it computed it for; only `result` is on the wire. -/
structure Reply (κ σ ε : Type) where
  frame : Frame κ
  result : Except ε σ
deriving DecidableEq

def Call.frame (c : Call κ) : Frame κ :=
  ⟨c.id, c.cursor, int32 c.limit⟩

structure Handle (κ σ ε : Type) where
  calls : Nat := 0
  waiting : Option (Call κ) := none
  sent : List (Frame κ) := []
  wire : List (Reply κ σ ε) := []
  slot : Option (Reply κ σ ε) := none
  reading : Bool := true
  returned : List (Call κ × Reply κ σ ε) := []
deriving DecidableEq

inductive Action (κ σ ε : Type)
  | reanchor (cursor : Option κ) (limit : Int)
  | answer (result : Except ε σ)
  | read
  | readerExits
  | receive
  | streamClosed
  | contextDone

/-- The reader blocks on a full channel, and closes it when it exits: what is in the slot can
still be received.  A call may be abandoned with its reply in the slot, the choice between two
ready channels being free. -/
def step (h : Handle κ σ ε) : Action κ σ ε → Option (Handle κ σ ε)
  | .reanchor cursor limit =>
    match h.waiting with
    | some _ => none
    | none =>
      let call : Call κ := ⟨h.calls, cursor, limit⟩
      some { h with
        calls := h.calls + 1
        waiting := some call
        sent := h.sent ++ [call.frame] }
  | .answer result =>
    match h.sent with
    | [] => none
    | frame :: rest => some { h with sent := rest, wire := h.wire ++ [⟨frame, result⟩] }
  | .read =>
    match h.reading, h.wire, h.slot with
    | true, reply :: rest, none => some { h with wire := rest, slot := some reply }
    | _, _, _ => none
  | .readerExits => some { h with reading := false }
  | .receive =>
    match h.waiting, h.slot with
    | some call, some reply =>
      some { h with
        waiting := none
        slot := none
        returned := h.returned ++ [(call, reply)] }
    | _, _ => none
  | .streamClosed =>
    match h.waiting, h.slot, h.reading with
    | some _, none, false => some { h with waiting := none }
    | _, _, _ => none
  | .contextDone =>
    match h.waiting with
    | some _ => some { h with waiting := none }
    | none => none

/-- The reply was computed for the call that returns it. -/
def Answers (call : Call κ) (reply : Reply κ σ ε) : Prop :=
  reply.frame.call = call.id ∧ reply.frame.cursor = call.cursor ∧ reply.frame.limit = call.limit

instance [DecidableEq κ] (call : Call κ) (reply : Reply κ σ ε) :
    Decidable (Answers call reply) :=
  inferInstanceAs (Decidable (_ ∧ _))

/-- No reply to an earlier control frame is still to be taken: none that the server has yet to
compute, none on the wire or in the slot. -/
def Handle.settled (h : Handle κ σ ε) : Prop :=
  h.sent = [] ∧ h.wire = [] ∧ h.slot = none

/-- A call starts when every earlier one has taken its own reply, with a limit of 32 bits. -/
def Undisturbed (h : Handle κ σ ε) : Action κ σ ε → Prop
  | .reanchor _ limit => h.settled ∧ -2 ^ 31 ≤ limit ∧ limit < 2 ^ 31
  | _ => True

structure Inv (h : Handle κ σ ε) : Prop where
  limit : ∀ call ∈ h.waiting, call.frame.limit = call.limit
  sent : ∀ call ∈ h.waiting, ∀ frame ∈ h.sent, frame = call.frame
  wire : ∀ call ∈ h.waiting, ∀ reply ∈ h.wire, reply.frame = call.frame
  slot : ∀ call ∈ h.waiting, ∀ reply ∈ h.slot, reply.frame = call.frame
  returned : ∀ entry ∈ h.returned, Answers entry.1 entry.2

variable {h : Handle κ σ ε}

theorem Inv.of_idle (hidle : h.waiting = none)
    (hret : ∀ entry ∈ h.returned, Answers entry.1 entry.2) : Inv h := by
  constructor <;> simp_all

theorem Inv.reanchor (hinv : Inv h) {cursor : Option κ} {limit : Int}
    {sent : List (Frame κ)} (hok : Undisturbed h (.reanchor cursor limit))
    (hsent : sent = h.sent ++ [(⟨h.calls, cursor, limit⟩ : Call κ).frame]) :
    Inv { h with calls := h.calls + 1, waiting := some ⟨h.calls, cursor, limit⟩, sent := sent } := by
  obtain ⟨⟨hnone, hwire, hslot⟩, hlow, hhigh⟩ := hok
  constructor
  · rintro call ⟨⟩
    exact int32_eq hlow hhigh
  · rintro call ⟨⟩ frame hframe
    simpa [hsent, hnone] using hframe
  · simp [hwire]
  · simp [hslot]
  · exact hinv.returned

theorem Inv.answer (hinv : Inv h) {frame : Frame κ} {rest : List (Frame κ)}
    (hsent : h.sent = frame :: rest) (result : Except ε σ) :
    Inv { h with sent := rest, wire := h.wire ++ [⟨frame, result⟩] } where
  limit := hinv.limit
  sent call hcall f hf := hinv.sent call hcall f (by simp [hsent, hf])
  wire call hcall :=
    forall_mem_concat (hinv.wire call hcall) (hinv.sent call hcall frame (by simp [hsent]))
  slot := hinv.slot
  returned := hinv.returned

theorem Inv.read (hinv : Inv h) {reply : Reply κ σ ε}
    {rest : List (Reply κ σ ε)} (hwire : h.wire = reply :: rest) :
    Inv { h with wire := rest, slot := some reply } where
  limit := hinv.limit
  sent := hinv.sent
  wire call hcall r hr := hinv.wire call hcall r (by simp [hwire, hr])
  slot := by
    rintro call hcall _ ⟨⟩
    exact hinv.wire call hcall reply (by simp [hwire])
  returned := hinv.returned

theorem Inv.receive (hinv : Inv h) {call : Call κ} {reply : Reply κ σ ε}
    (hcall : h.waiting = some call) (hreply : h.slot = some reply) :
    Inv { h with waiting := none, slot := none, returned := h.returned ++ [(call, reply)] } := by
  refine .of_idle rfl fun entry hentry => ?_
  rcases mem_append.mp hentry with hold | hnew
  · exact hinv.returned entry hold
  · have hframe : reply.frame = call.frame := hinv.slot call hcall reply hreply
    rw [mem_singleton.mp hnew]
    exact ⟨by simp [hframe, Call.frame], by simp [hframe, Call.frame],
      by rw [hframe]; exact hinv.limit call hcall⟩

theorem Inv.step {h' : Handle κ σ ε} {a : Action κ σ ε} (hinv : Inv h)
    (hok : Undisturbed h a) (hstep : step h a = some h') : Inv h' := by
  revert hok hstep
  fun_cases LiveReanchor.step h a <;> rintro hok ⟨⟩
  · exact hinv.reanchor hok rfl
  · exact hinv.answer ‹_› _
  · exact hinv.read ‹_›
  · exact ⟨hinv.limit, hinv.sent, hinv.wire, hinv.slot, hinv.returned⟩
  · exact hinv.receive ‹_› ‹_›
  · exact .of_idle rfl hinv.returned
  · exact .of_idle rfl hinv.returned

/-- In every undisturbed run a snapshot is returned to the call it was computed for. -/
theorem snapshot_answers_own_call {trace : List (Action κ σ ε)} {h : Handle κ σ ε}
    (hok : Along step Undisturbed {} trace) (hrun : run step {} trace = some h)
    {call : Call κ} {reply : Reply κ σ ε} {snap : σ} (hret : (call, reply) ∈ h.returned)
    (_hsnap : reply.result = .ok snap) : Answers call reply := by
  have hinit : Inv ({} : Handle κ σ ε) := .of_idle rfl (by simp)
  have hinv : Inv h := run_invariant (fun _ _ _ => Inv.step) hinit hok hrun
  exact hinv.returned _ hret

def inTurn : List (Action Nat Nat Unit) :=
  [.reanchor (some 7) 20, .answer (.ok 70), .read, .receive,
    .reanchor (some 8) 20, .answer (.ok 80), .read, .receive]

theorem snapshot_answers_second_call :
    ∃ h, run step {} inTurn = some h ∧ ∃ entry ∈ h.returned.getLast?, Answers entry.1 entry.2 := by
  refine ⟨_, rfl, _, rfl, ?_⟩
  have hok : Along step Undisturbed {} inTurn := by
    simp [inTurn, Along, Undisturbed, Handle.settled, step]
  exact snapshot_answers_own_call hok rfl (mem_of_getLast? rfl) rfl

theorem abandoned_reply_answers_next_call : ∃ h, run step ({} : Handle Nat Nat Unit)
        [.reanchor (some 7) 20, .contextDone, .answer (.ok 70), .read,
          .reanchor (some 8) 20, .receive] = some h ∧
      ∃ call reply, (call, reply) ∈ h.returned ∧ reply.result = .ok 70 ∧
        call.cursor = some 8 ∧ reply.frame.cursor = some 7 ∧ ¬ Answers call reply :=
  ⟨_, rfl, _, _, mem_singleton_self _, rfl, rfl, rfl, by decide⟩

end Fabriq.Remote.LiveReanchor
