import Fabriq.Lib.Machine

namespace Fabriq.Exec.ErasureAuthority

open Lib.Machine List Option

/-- `unicode.IsSpace`. -/
def isSpace (c : Char) : Bool :=
  c.isWhitespace || [0x0B, 0x0C, 0x85, 0xA0, 0x1680, 0x2028, 0x2029, 0x202F, 0x205F,
    0x3000].contains c.toNat || (0x2000 ≤ c.toNat && c.toNat ≤ 0x200A)

/-- A text with something in it, of at most 512 bytes and on one line. -/
def validText (s : String) : Bool :=
  !s.toList.all isSpace && s.utf8ByteSize ≤ 512 &&
    !s.toList.any fun c => c.toNat == 0 || c == '\r' || c == '\n'

/-- A lower-case name of at most `max + 1` characters. -/
def validName (max : Nat) (s : String) : Bool :=
  match s.toList with
  | [] => false
  | first :: rest => first.isLower && rest.length ≤ max &&
      rest.all fun c => c.isLower || c.isDigit || c == '_'

structure Context where
  tenant : String
  scope : String
  deriving DecidableEq

structure ErasureRequest where
  entity : String
  aggregateId : String
  scopeId : String
  expectedVersion : Int
  reasonCode : String

def ErasureRequest.validate (r : ErasureRequest) (ctx : Context) : Bool :=
  ctx.tenant != "" && validName 62 r.entity && validText r.aggregateId &&
    decide (0 ≤ r.expectedVersion) && validName 63 r.reasonCode && r.scopeId == ctx.scope

structure ErasureGrant where
  actor : String
  authorityRevision : String

def validErasureGrant (g : ErasureGrant) : Bool :=
  [g.actor, g.authorityRevision].all validText

/-- Where an invocation of the callback is: before its first critical section, refused or
admitted by it, in its transaction, with the receipt of `EraseAggregate`, at the end of
`perform`, or past its second one. -/
inductive Phase (Receipt : Type)
  | invoked
  | refused
  | admitted
  | inTx
  | erased (receipt : Receipt)
  | performed (receipt : Option Receipt)
  | completed

def Phase.isAdmitted {Receipt : Type} : Phase Receipt → Bool
  | .invoked | .refused => false
  | _ => true

structure Call (Receipt : Type) where
  /-- `none` is a nil context. -/
  ctx : Option Context
  grant : ErasureGrant
  phase : Phase Receipt := .invoked

structure Closing (Receipt : Type) where
  done : Bool
  receipt : Option Receipt
  callbackErr : Bool
  invalid : Bool

/-- One call of `EraseAggregate` from the invocation of the authoriser on.  `returned` is
whether the authoriser has returned, and whether without an error; in `answer`, `some none` is
an error.  The last four fields record who began a transaction, the committed receipts, and the
invocations over before the authoriser returned, and before the attempt was closed. -/
structure Attempt (Receipt : Type) where
  active : Bool := true
  started : Bool := false
  finished : Bool := false
  operationErr : Bool := false
  protocolErr : Bool := false
  result : Option Receipt := none
  calls : List (Call Receipt) := []
  returned : Option Bool := none
  closing : Option (Closing Receipt) := none
  answer : Option (Option Receipt) := none
  transactions : List Nat := []
  committed : List (Nat × Receipt) := []
  early : List Nat := []
  timely : List Nat := []

/-- The arguments of the call, and whether an authoriser is configured and the entity is a
registered aggregate. -/
structure Erasure where
  ctx : Context
  request : ErasureRequest
  authorizer : Bool
  aggregate : Bool

def Erasure.start {Receipt : Type} (e : Erasure) : Option (Attempt Receipt) :=
  if e.request.validate e.ctx && e.authorizer && e.aggregate then some {} else none

/-- The checks of `perform` other than that the contexts are still live. -/
def Erasure.accepts (e : Erasure) (ctx : Option Context) (grant : ErasureGrant) : Bool :=
  ctx.any fun tc => tc.tenant == e.ctx.tenant && e.request.validate tc && validErasureGrant grant

/-- The steps of the executor, the host and the database.  The host may invoke the callback at
any time, and invocations proceed independently. -/
inductive Action (Receipt : Type)
  | invoke (ctx : Option Context) (grant : ErasureGrant)
  | enter (i : Nat)
  | check (i : Nat) (live : Bool)
  | erase (i : Nat) (receipt : Option Receipt)
  | commit (i : Nat) (ok : Bool)
  | finish (i : Nat)
  | returnNil
  | returnErr
  | close
  | answer (live : Bool)

variable {Receipt : Type}

def Attempt.move (s : Attempt Receipt) (i : Nat) (phase : Phase Receipt) : Attempt Receipt :=
  { s with calls := s.calls.modify i fun call => { call with phase := phase } }

def enter (s : Attempt Receipt) (i : Nat) : Option (Attempt Receipt) :=
  match s.calls[i]? with
  | some ⟨_, _, .invoked⟩ =>
    if !s.active || s.started then some { s.move i .refused with protocolErr := true }
    else some { s.move i .admitted with started := true }
  | _ => none

def check (e : Erasure) (s : Attempt Receipt) (i : Nat) (live : Bool) : Option (Attempt Receipt) :=
  match s.calls[i]? with
  | some ⟨ctx, grant, .admitted⟩ =>
    if live && e.accepts ctx grant then
      some { s.move i .inTx with transactions := i :: s.transactions }
    else some (s.move i (.performed none))
  | _ => none

def erase (s : Attempt Receipt) (i : Nat) (receipt : Option Receipt) : Option (Attempt Receipt) :=
  match s.calls[i]?, receipt with
  | some ⟨_, _, .inTx⟩, some r => some (s.move i (.erased r))
  | some ⟨_, _, .inTx⟩, none => some (s.move i (.performed none))
  | _, _ => none

def commit (s : Attempt Receipt) (i : Nat) (ok : Bool) : Option (Attempt Receipt) :=
  match s.calls[i]? with
  | some ⟨_, _, .erased r⟩ =>
    if ok then
      some { s.move i (.performed (some r)) with committed := (i, r) :: s.committed }
    else some (s.move i (.performed none))
  | _ => none

def finish (s : Attempt Receipt) (i : Nat) : Option (Attempt Receipt) :=
  match s.calls[i]? with
  | some ⟨_, _, .performed receipt⟩ =>
    let kept := if s.active then receipt else none
    some { s.move i .completed with
      result := kept
      operationErr := kept.isNone
      finished := true
      early := if s.returned.isNone then i :: s.early else s.early
      timely := if s.active then i :: s.timely else s.timely }
  | _ => none

def returnWith (s : Attempt Receipt) (nilErr : Bool) : Option (Attempt Receipt) :=
  if s.returned.isNone then some { s with returned := some nilErr } else none

def close (s : Attempt Receipt) : Option (Attempt Receipt) :=
  if s.returned.isSome && s.closing.isNone then
    some { s with
      active := false
      closing := some ⟨s.started && s.finished, s.result, s.operationErr, s.protocolErr⟩ }
  else none

def answer (s : Attempt Receipt) (live : Bool) : Option (Attempt Receipt) :=
  match s.returned, s.closing, s.answer with
  | some nilErr, some c, none =>
    some { s with
      answer := some (if nilErr && !c.invalid && c.done && !c.callbackErr && live
        then c.receipt else none) }
  | _, _, _ => none

def step (e : Erasure) (s : Attempt Receipt) : Action Receipt → Option (Attempt Receipt)
  | .invoke ctx grant => some { s with calls := s.calls ++ [⟨ctx, grant, .invoked⟩] }
  | .enter i => enter s i
  | .check i live => check e s i live
  | .erase i receipt => erase s i receipt
  | .commit i ok => commit s i ok
  | .finish i => finish s i
  | .returnNil => returnWith s true
  | .returnErr => returnWith s false
  | .close => close s
  | .answer live => answer s live

/-- An invocation that committed the receipt under a context and a grant that pass, and
that was over in time. -/
def Completed (e : Erasure) (s : Attempt Receipt) (intime : List Nat) (i : Nat)
    (receipt : Receipt) : Prop :=
  ∃ call, s.calls[i]? = some call ∧ call.phase = .completed ∧ i ∈ intime ∧
    e.accepts call.ctx call.grant = true ∧ (i, receipt) ∈ s.committed

def Admitted (s : Attempt Receipt) (i : Nat) : Prop :=
  ∃ call, s.calls[i]? = some call ∧ call.phase.isAdmitted = true

def retention : Erasure where
  ctx := ⟨"acme", ""⟩
  request := ⟨"site", "s1", "", 1, "expired"⟩
  authorizer := true
  aggregate := true

def lateCallback : List (Action String) :=
  [.returnNil, .invoke (some ⟨"acme", ""⟩) ⟨"worker", "1"⟩, .enter 0, .check 0 true,
    .erase 0 (some "receipt"), .commit 0 true, .finish 0, .close, .answer true]

theorem lateCallback_answered :
    ∃ s t, retention.start = some s ∧ run (step retention) s lateCallback = some t ∧
      t.answer = some (some "receipt") ∧ ∀ i, ¬ Completed retention t t.early i "receipt" := by
  refine ⟨{}, _, rfl, rfl, rfl, ?_⟩
  rintro i ⟨call, -, -, hearly, -⟩
  exact not_mem_nil hearly

/-- How far the admitted invocation is, and what its grant has let it do. -/
def Progress (e : Erasure) (s : Attempt Receipt) (i : Nat) (call : Call Receipt) : Prop :=
  match call.phase with
  | .invoked | .refused => False
  | .admitted => s.finished = false ∧ s.transactions = []
  | .inTx | .erased _ => s.finished = false ∧ e.accepts call.ctx call.grant = true
  | .performed receipt => s.finished = false ∧
      ∀ r, receipt = some r → e.accepts call.ctx call.grant = true ∧ (i, r) ∈ s.committed
  | .completed => s.finished = true ∧ ∀ r, s.result = some r →
      i ∈ s.timely ∧ e.accepts call.ctx call.grant = true ∧ (i, r) ∈ s.committed

def Claimed (e : Erasure) (s : Attempt Receipt) : Prop :=
  (s.started = false ∧ s.finished = false ∧ s.transactions = [] ∧ ∀ j, ¬ Admitted s j) ∨
    ∃ i call, s.calls[i]? = some call ∧ s.started = true ∧ (∀ j, Admitted s j → j = i) ∧
      Progress e s i call

structure Inv (e : Erasure) (s : Attempt Receipt) : Prop where
  claimed : Claimed e s
  single : s.transactions.length ≤ 1
  closing : ∀ c, s.closing = some c → c.done = true →
    s.finished = true ∧ c.receipt = s.result
  answer : ∀ r, s.answer = some (some r) →
    s.returned = some true ∧ s.finished = true ∧ s.result = some r

variable {e : Erasure} {s t : Attempt Receipt} {i j : Nat} {phase : Phase Receipt}
  {call : Call Receipt}

theorem getElem?_move : (s.move i phase).calls[j]? =
      if j = i then (s.calls[j]?).map fun call => { call with phase := phase }
      else s.calls[j]? := by
  simp only [Attempt.move, List.getElem?_modify]
  by_cases hji : j = i
  · simp [hji]
  · have hij : i ≠ j := Ne.symm hji
    simp [hji, hij]

theorem getElem?_move_self (hi : s.calls[i]? = some call) :
    (s.move i phase).calls[i]? = some { call with phase := phase } := by
  rw [getElem?_move, if_pos rfl, hi]
  rfl

theorem Admitted.of_move (h : Admitted (s.move i phase) j) :
    Admitted s j ∨ j = i ∧ phase.isAdmitted := by
  obtain ⟨other, hother, hadm⟩ := h
  rw [getElem?_move] at hother
  split_ifs at hother with hji
  · obtain ⟨call, -, rfl⟩ := map_eq_some_iff.mp hother
    exact .inr ⟨hji, hadm⟩
  · exact .inl ⟨other, hother, hadm⟩

theorem Claimed.progress (h : Claimed e s) (hi : s.calls[i]? = some call)
    (hadm : call.phase.isAdmitted) :
    s.started = true ∧ (∀ j, Admitted s j → j = i) ∧ Progress e s i call := by
  rcases h with ⟨-, -, -, hnone⟩ | ⟨k, owner, hk, hstarted, honly, hprogress⟩
  · exact absurd ⟨call, hi, hadm⟩ (hnone i)
  · obtain rfl := honly i ⟨call, hi, hadm⟩
    obtain rfl := some.inj (hi.symm.trans hk)
    exact ⟨hstarted, honly, hprogress⟩

theorem claimed_move (hi : s.calls[i]? = some call) (hstarted : s.started)
    (honly : ∀ j, Admitted s j → j = i) (hprogress : Progress e s i { call with phase := phase }) :
    Claimed e (s.move i phase) := by
  refine Or.inr ⟨i, _, getElem?_move_self hi, hstarted, fun j hj => ?_, hprogress⟩
  rcases hj.of_move with hold | ⟨hji, -⟩
  · exact honly j hold
  · exact hji

theorem inv_start (h : e.start = some s) : Inv e s := by
  obtain ⟨-, h⟩ := ite_none_right_eq_some.mp h
  cases h
  refine ⟨.inl ⟨rfl, rfl, rfl, ?_⟩, by simp, nofun, nofun⟩
  rintro i ⟨call, hcall, -⟩
  simp at hcall

theorem claimed_refused {ctx : Option Context} {grant : ErasureGrant} (h : Claimed e s)
    (hi : s.calls[i]? = some ⟨ctx, grant, .invoked⟩) : Claimed e (s.move i .refused) := by
  have hold : ∀ j, Admitted (s.move i .refused) j → Admitted s j := fun j hj =>
    hj.of_move.resolve_right fun hrefused => Bool.false_ne_true hrefused.2
  rcases h with ⟨hstarted, hfin, hnil, hnone⟩ | ⟨k, call, hk, hstarted, honly, hprogress⟩
  · exact .inl ⟨hstarted, hfin, hnil, fun j hj => hnone j (hold j hj)⟩
  · refine Or.inr ⟨k, call, ?_, hstarted, fun j hj => honly j (hold j hj), hprogress⟩
    have hki : k ≠ i := by
      rintro rfl
      obtain rfl := some.inj (hi.symm.trans hk)
      exact hprogress
    rw [getElem?_move, if_neg hki, hk]

section

variable (h : Inv e s)
include h

theorem inv_invoke (ctx : Option Context) (grant : ErasureGrant) :
    Inv e { s with calls := s.calls ++ [⟨ctx, grant, .invoked⟩] } := by
  have hold : ∀ j, Admitted { s with calls := s.calls ++ [⟨ctx, grant, .invoked⟩] } j →
      Admitted s j := by
    rintro j ⟨call, hcall, hadm⟩
    rw [List.getElem?_append] at hcall
    split_ifs at hcall
    · exact ⟨call, hcall, hadm⟩
    · rw [mem_singleton.mp (mem_of_getElem? hcall)] at hadm
      cases hadm
  refine { h with claimed := ?_ }
  rcases h.claimed with ⟨hstarted, hfin, hnil, hnone⟩ | ⟨i, call, hi, hstarted, honly, hprogress⟩
  · exact .inl ⟨hstarted, hfin, hnil, fun j hj => hnone j (hold j hj)⟩
  · refine Or.inr ⟨i, call, ?_, hstarted, fun j hj => honly j (hold j hj), hprogress⟩
    rw [List.getElem?_append_left (List.getElem?_eq_some_iff.mp hi).1, hi]

theorem inv_enter (hstep : enter s i = some t) : Inv e t := by
  revert hstep
  fun_cases enter s i <;> rintro ⟨⟩
  · rename_i hi _
    exact { h with claimed := claimed_refused h.claimed hi }
  · rename_i hi hrefused
    simp only [Bool.or_eq_true, not_or, Bool.not_eq_true] at hrefused
    rcases h.claimed with ⟨-, hfin, hnil, hnone⟩ | ⟨k, call, hk, hstarted, -⟩
    · refine { h with claimed := ?_ }
      exact claimed_move (s := { s with started := true }) hi rfl
        (fun j hj => absurd hj (hnone j)) ⟨hfin, hnil⟩
    · exact absurd (hrefused.2.symm.trans hstarted) Bool.false_ne_true

theorem Inv.advance {transactions : List Nat} {committed : List (Nat × Receipt)}
    (hi : s.calls[i]? = some call) (hadm : call.phase.isAdmitted)
    (hsingle : transactions.length ≤ 1)
    (hprogress : Progress e { s with transactions := transactions, committed := committed } i
      { call with phase := phase }) :
    Inv e { s.move i phase with transactions := transactions, committed := committed } := by
  obtain ⟨hstarted, honly, -⟩ := h.claimed.progress hi hadm
  exact { h with
    claimed := claimed_move
      (s := { s with transactions := transactions, committed := committed }) hi hstarted honly
      hprogress
    single := hsingle }

theorem inv_check {live : Bool} (hstep : check e s i live = some t) : Inv e t := by
  revert hstep
  fun_cases check e s i live <;> rintro ⟨⟩ <;> rename_i hi hpass <;>
    obtain ⟨-, -, hfin, hnil⟩ := h.claimed.progress hi rfl
  · exact h.advance hi rfl (by simp [hnil]) ⟨hfin, (Bool.and_eq_true_iff.mp hpass).2⟩
  · exact h.advance hi rfl h.single ⟨hfin, nofun⟩

theorem inv_erase {receipt : Option Receipt} (hstep : erase s i receipt = some t) : Inv e t := by
  revert hstep
  fun_cases erase s i receipt <;> rintro ⟨⟩ <;> rename_i hi
  · exact h.advance hi rfl h.single (h.claimed.progress hi rfl).2.2
  · exact h.advance hi rfl h.single ⟨(h.claimed.progress hi rfl).2.2.1, nofun⟩

theorem inv_commit {ok : Bool} (hstep : commit s i ok = some t) : Inv e t := by
  revert hstep
  fun_cases commit s i ok <;> rintro ⟨⟩ <;> rename_i hi _ <;>
    obtain ⟨-, -, hfin, haccepts⟩ := h.claimed.progress hi rfl
  · refine h.advance hi rfl h.single ⟨hfin, fun r' hr => ⟨haccepts, ?_⟩⟩
    cases hr
    exact mem_cons_self
  · exact h.advance hi rfl h.single ⟨hfin, nofun⟩

theorem inv_finish (hstep : finish s i = some t) : Inv e t := by
  unfold finish at hstep
  split at hstep
  · rename_i ctx grant receipt hi
    cases hstep
    obtain ⟨hstarted, honly, hfin, hreceipt⟩ := h.claimed.progress hi rfl
    have hopen : s.finished ≠ true := by simp [hfin]
    refine { h with
      claimed := ?_
      closing := fun c hc hdone => absurd (h.closing c hc hdone).1 hopen
      answer := fun r hr => absurd (h.answer r hr).2.1 hopen }
    refine Or.inr ⟨i, _, getElem?_move_self hi, hstarted, fun j hj => ?_, rfl, fun r hr => ?_⟩
    · rcases Admitted.of_move hj with hold | ⟨hji, -⟩
      · exact honly j hold
      · exact hji
    · -- The executor has not closed the attempt, so the callback keeps its receipt.
      obtain ⟨hactive, hr⟩ := ite_none_right_eq_some.mp hr
      exact ⟨by simp [hactive], hreceipt r hr⟩
  · simp at hstep

theorem inv_returnWith {nilErr : Bool} (hstep : returnWith s nilErr = some t) : Inv e t := by
  obtain ⟨hnone, hstep⟩ := ite_none_right_eq_some.mp hstep
  cases hstep
  refine { h with answer := fun r hr => ?_ }
  rw [(h.answer r hr).1] at hnone
  cases hnone

theorem inv_close (hstep : close s = some t) : Inv e t := by
  obtain ⟨-, hstep⟩ := ite_none_right_eq_some.mp hstep
  cases hstep
  refine { h with closing := fun c hc hdone => ?_ }
  cases hc
  exact ⟨(Bool.and_eq_true_iff.mp hdone).2, rfl⟩

theorem inv_answer {live : Bool} (hstep : answer s live = some t) : Inv e t := by
  revert hstep
  fun_cases answer s live <;> rintro ⟨⟩
  rename_i c _ hclosing hret
  refine { h with answer := fun r hr => ?_ }
  obtain ⟨hpass, hreceipt⟩ := ite_none_right_eq_some.mp (some.inj hr)
  simp only [Bool.and_eq_true, Bool.not_eq_true'] at hpass
  obtain ⟨⟨⟨⟨hnil, -⟩, hdone⟩, -⟩, -⟩ := hpass
  obtain ⟨hfin, hresult⟩ := h.closing c hclosing hdone
  exact ⟨hret.trans (congrArg some hnil), hfin, hresult.symm.trans hreceipt⟩

end

theorem inv_step (a : Action Receipt) (h : Inv e s) (hstep : step e s a = some t) : Inv e t := by
  cases a with
  | invoke ctx grant =>
    cases hstep
    exact inv_invoke h ctx grant
  | enter i => exact inv_enter h hstep
  | check i live => exact inv_check h hstep
  | erase i receipt => exact inv_erase h hstep
  | commit i ok => exact inv_commit h hstep
  | finish i => exact inv_finish h hstep
  | returnNil | returnErr => exact inv_returnWith h hstep
  | close => exact inv_close h hstep
  | answer live => exact inv_answer h hstep

theorem inv_run {trace : List (Action Receipt)} (hstart : e.start = some s)
    (hrun : run (step e) s trace = some t) : Inv e t :=
  run_preserves (fun _ a _ => inv_step a) (inv_start hstart) hrun

theorem Progress.phase_eq_completed (h : Progress e s i call) (hfin : s.finished) :
    call.phase = .completed := by
  rcases call with ⟨ctx, grant, _ | _ | _ | _ | _ | _ | _⟩ <;> simp_all [Progress]

/-- Whatever the host does, one transaction at most is begun, and a receipt is returned only
when the authoriser returned nil and the one admitted invocation committed that receipt, with
the caller's tenant and a valid grant, before the attempt was closed. -/
theorem receipt_needs_authority (e : Erasure) {s t : Attempt Receipt}
    {trace : List (Action Receipt)} (hstart : e.start = some s)
    (hrun : run (step e) s trace = some t) :
    t.transactions.length ≤ 1 ∧ ∀ receipt, t.answer = some (some receipt) → t.returned = some true ∧
          ∃ i, Completed e t t.timely i receipt ∧ ∀ j, Admitted t j ↔ j = i := by
  have hinv := inv_run hstart hrun
  refine ⟨hinv.single, fun receipt hanswer => ?_⟩
  obtain ⟨hreturned, hfin, hresult⟩ := hinv.answer receipt hanswer
  rcases hinv.claimed with ⟨-, hnot, -⟩ | ⟨i, ⟨ctx, grant, phase⟩, hi, -, honly, hprogress⟩
  · exact absurd (hnot.symm.trans hfin) Bool.false_ne_true
  · obtain rfl : phase = .completed := hprogress.phase_eq_completed hfin
    obtain ⟨htimely, haccepts, hmem⟩ := hprogress.2 receipt hresult
    refine ⟨hreturned, i, ⟨_, hi, rfl, htimely, haccepts, hmem⟩, fun j => ⟨honly j, ?_⟩⟩
    rintro rfl
    exact ⟨_, hi, rfl⟩

def waitingHost : List (Action String) :=
  [.invoke (some ⟨"acme", ""⟩) ⟨"worker", "1"⟩, .enter 0, .check 0 true,
    .erase 0 (some "receipt"), .commit 0 true, .finish 0, .returnNil, .close, .answer true]

theorem receipt_needs_authority_waitingHost :
    ∃ s t, retention.start = some s ∧ run (step retention) s waitingHost = some t ∧
      t.answer = some (some "receipt") ∧
      ∃ i, Completed retention t t.timely i "receipt" ∧ ∀ j, Admitted t j ↔ j = i := by
  have hstart : retention.start = some ({} : Attempt String) := rfl
  have hrun : run (step retention) {} waitingHost = some _ := rfl
  exact ⟨{}, _, hstart, hrun, rfl, ((receipt_needs_authority _ hstart hrun).2 _ rfl).2⟩

end Fabriq.Exec.ErasureAuthority
