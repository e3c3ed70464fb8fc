import Fabriq.Lib.Assoc
import Fabriq.Lib.Machine

namespace Fabriq.Live.PartitionLifecycle

open Lib.Assoc Lib.Machine List Option

/-- A partition: its reference count, its dispatch loop, and whether `done` is closed
and the feed's channel is still open. -/
structure Partition where
  key : String
  refs : Int
  running : Bool
  closed : Bool
  feedOpen : Bool

def newPartition (key : String) : Partition :=
  ⟨key, 1, true, false, true⟩

/-- A function handed to `do` is run, or refused with `errPartitionClosed`; otherwise
the caller waits for ever. -/
def Partition.answers (p : Partition) : Bool :=
  p.running || p.closed

/-- Where a subscription stands: between `partitionFor` and the end of `attach`, in use, or about
to release its partition. -/
inductive Phase
  | attaching
  | attached
  | leaving
  deriving DecidableEq

structure Subscription where
  key : String
  part : Nat

/-- The engine: every partition ever made, the map of the registered ones, and the
subscriptions that have not released theirs. -/
structure Engine where
  parts : Nat → Partition
  made : Nat
  partitions : List (String × Nat)
  subs : List (Nat × Subscription)
  phase : Nat → Phase
  subSeq : Nat

def newEngine : Engine :=
  ⟨fun _ => newPartition "", 0, [], [], fun _ => .leaving, 0⟩

def Engine.edit (e : Engine) (pid : Nat) (f : Partition → Partition) : Engine :=
  { e with parts := fun i => if i = pid then f (e.parts i) else e.parts i }

def Engine.enter (e : Engine) (key : String) (pid : Nat) : Engine :=
  { e with
    subs := (e.subSeq, ⟨key, pid⟩) :: e.subs
    phase := fun i => if i = e.subSeq then .attaching else e.phase i
    subSeq := e.subSeq + 1 }

def Engine.setPhase (e : Engine) (sub : Nat) (phase : Phase) : Engine :=
  { e with phase := fun i => if i = sub then phase else e.phase i }

/-- A new partition and its feed; `none` when the feed cannot be opened. -/
def partitionFor (e : Engine) (key : String) (feedOk : Bool) : Option (Engine × Nat) :=
  match e.partitions.lookup key with
  | some pid => some (e.edit pid fun p => { p with refs := p.refs + 1 }, pid)
  | none =>
    if feedOk then
      some ({ e.edit e.made (fun _ => newPartition key) with
        made := e.made + 1
        partitions := put e.partitions key e.made }, e.made)
    else none

def release (e : Engine) (key : String) : Engine :=
  match e.partitions.lookup key with
  | none => e
  | some pid =>
    if (e.parts pid).refs - 1 ≤ 0 then
      { e.edit pid (fun p => { p with refs := p.refs - 1, closed := true }) with
        partitions := drop e.partitions key }
    else e.edit pid fun p => { p with refs := p.refs - 1 }

inductive Action
  /-- `partitionFor` at the start of `Subscribe`. -/
  | subscribe (key : String) (feedOk : Bool)
  | attach (sub : Nat) (ok : Bool)
  /-- The first half of `Close`. -/
  | detach (sub : Nat)
  | release (sub : Nat)
  /-- The feed closes the channel of changes. -/
  | feedEnds (pid : Nat)
  | loopReturns (pid : Nat)

def step (e : Engine) : Action → Option Engine
  | .subscribe key feedOk =>
    match partitionFor e key feedOk with
    | some (e', pid) => some (e'.enter key pid)
    | none => some e
  | .attach sub ok =>
    match e.subs.lookup sub, e.phase sub with
    | some call, .attaching =>
      if ok then
        if (e.parts call.part).running then some (e.setPhase sub .attached) else none
      else if (e.parts call.part).answers then some (e.setPhase sub .leaving)
      else none
    | _, _ => none
  | .detach sub =>
    match e.subs.lookup sub, e.phase sub with
    | some call, .attached =>
      if (e.parts call.part).answers then some (e.setPhase sub .leaving) else none
    | _, _ => none
  | .release sub =>
    match e.subs.lookup sub, e.phase sub with
    | some call, .leaving =>
      some { release e call.key with subs := drop e.subs sub }
    | _, _ => none
  | .feedEnds pid =>
    if pid < e.made then some (e.edit pid fun p => { p with feedOpen := false }) else none
  | .loopReturns pid =>
    if (e.parts pid).running && ((e.parts pid).closed || !(e.parts pid).feedOpen) then
      some (e.edit pid fun p => { p with running := false })
    else none

/-- Every partition that is registered, or that a subscription was handed, answers: its loop runs,
or its `done` channel is closed. -/
def Serviceable (e : Engine) : Prop :=
  (∀ key pid, e.partitions.lookup key = some pid → (e.parts pid).answers = true) ∧
    ∀ sub call, e.subs.lookup sub = some call → (e.parts call.part).answers = true

def deadFeed : List Action :=
  [.subscribe "acme|asset" true, .attach 0 true, .feedEnds 0, .loopReturns 0,
    .subscribe "acme|asset" true]

/-- The loop returns, the partition stays registered with `done` open, and the next subscriber
waits for ever. -/
theorem deadFeed_not_serviceable : ∃ e, run step newEngine deadFeed = some e ∧ ¬ Serviceable e := by
  refine ⟨_, rfl, fun h => ?_⟩
  have hanswers := h.2 1 ⟨"acme|asset", 0⟩ rfl
  exact absurd hanswers (by decide)

/-- The feed of a registered partition does not end by itself. -/
def feedLasts (e : Engine) : Action → Bool
  | .feedEnds pid => e.partitions.all fun entry => entry.2 ≠ pid
  | _ => true

def Engine.holders (e : Engine) (pid : Nat) : Nat :=
  e.subs.countP fun entry => entry.2.part = pid

def Partition.serves (p : Partition) (key : String) : Prop :=
  p.key = key ∧ p.running = true ∧ p.closed = false ∧ p.feedOpen = true

/-- A registered partition serves its key and counts the subscriptions that hold it,
and no subscription holds another one. -/
structure Inv (e : Engine) : Prop where
  registered : ∀ key pid, e.partitions.lookup key = some pid →
    pid < e.made ∧ (e.parts pid).serves key ∧ (e.parts pid).refs = e.holders pid
  held : ∀ sub call, (sub, call) ∈ e.subs → e.partitions.lookup call.key = some call.part
  nodup : (e.subs.map Prod.fst).Nodup
  below : ∀ sub call, (sub, call) ∈ e.subs → sub < e.subSeq

theorem inv_newEngine : Inv newEngine where
  registered := nofun
  held := nofun
  nodup := .nil
  below := nofun

variable {e e' : Engine} {key : String} {pid sub : Nat}

theorem Inv.serviceable (h : Inv e) : Serviceable e := by
  have hanswers : ∀ key pid, e.partitions.lookup key = some pid → (e.parts pid).answers := by
    intro key pid hpid
    obtain ⟨-, ⟨-, hrunning, -⟩, -⟩ := h.registered key pid hpid
    rw [Partition.answers, hrunning, Bool.true_or]
  exact ⟨hanswers, fun sub call hcall =>
    hanswers call.key call.part (h.held sub call (mem_of_lookup hcall))⟩

theorem Inv.key_eq (h : Inv e) {key' : String} (hpid : e.partitions.lookup key = some pid)
    (hpid' : e.partitions.lookup key' = some pid) : key = key' := by
  obtain ⟨-, ⟨hkey, -⟩, -⟩ := h.registered key pid hpid
  obtain ⟨-, ⟨hkey', -⟩, -⟩ := h.registered key' pid hpid'
  exact hkey.symm.trans hkey'

theorem holders_enter (i : Nat) :
    (e.enter key pid).holders i = e.holders i + if pid = i then 1 else 0 := by
  simp only [Engine.holders, Engine.enter, countP_cons, decide_eq_true_eq]

theorem Inv.enter (hheld : ∀ sub call, (sub, call) ∈ e.subs →
      e.partitions.lookup call.key = some call.part) (hnodup : (e.subs.map Prod.fst).Nodup)
    (hbelow : ∀ sub call, (sub, call) ∈ e.subs → sub < e.subSeq)
    (hpid : e.partitions.lookup key = some pid)
    (hregistered : ∀ key' i, e.partitions.lookup key' = some i →
      i < e.made ∧ (e.parts i).serves key' ∧
        (e.parts i).refs = (e.holders i + if pid = i then 1 else 0 : Nat)) :
    Inv (e.enter key pid) where
  registered key' i hi := by
    obtain ⟨hlt, hserves, hrefs⟩ := hregistered key' i hi
    rw [holders_enter]
    exact ⟨hlt, hserves, hrefs⟩
  held sub call hcall := by
    rcases mem_cons.mp hcall with heq | hcall
    · cases heq
      exact hpid
    · exact hheld sub call hcall
  nodup := by
    refine nodup_cons.mpr ⟨?_, hnodup⟩
    rw [List.mem_map]
    rintro ⟨⟨sub, call⟩, hcall, heq⟩
    exact absurd (hbelow sub call hcall) (Nat.not_lt.mpr (Nat.le_of_eq heq.symm))
  below sub call hcall := by
    rcases mem_cons.mp hcall with heq | hcall
    · cases heq
      exact Nat.lt_succ_self _
    · exact Nat.lt_succ_of_lt (hbelow sub call hcall)

theorem Inv.partitionFor (h : Inv e) {feedOk : Bool}
    (heq : partitionFor e key feedOk = some (e', pid)) : Inv (e'.enter key pid) := by
  unfold PartitionLifecycle.partitionFor at heq
  cases hlookup : e.partitions.lookup key with
  | some old =>
    rw [hlookup] at heq
    obtain ⟨rfl, rfl⟩ := Prod.mk.inj (some.inj heq)
    refine Inv.enter h.held h.nodup h.below hlookup ?_
    intro key' i hi
    obtain ⟨hlt, hserves, hrefs⟩ := h.registered key' i hi
    refine ⟨hlt, ?_⟩
    by_cases hold : i = old
    · subst hold
      simp only [Engine.edit, if_pos]
      exact ⟨hserves, by simp [hrefs, Engine.holders]⟩
    · simp only [Engine.edit, if_neg hold, if_neg (Ne.symm hold)]
      exact ⟨hserves, by simp [hrefs, Engine.holders]⟩
  | none =>
    rw [hlookup] at heq
    split_ifs at heq
    obtain ⟨rfl, rfl⟩ := Prod.mk.inj (some.inj heq)
    have hnew : ∀ sub call, (sub, call) ∈ e.subs → call.part ≠ e.made := by
      intro sub call hcall
      exact Nat.ne_of_lt (h.registered _ _ (h.held sub call hcall)).1
    refine Inv.enter ?_ h.nodup h.below (by simp [lookup_put]) ?_
    · intro sub call hcall
      have hne : call.key ≠ key := by
        rintro rfl
        simp [h.held sub call hcall] at hlookup
      simp only [lookup_put, if_neg hne]
      exact h.held sub call hcall
    · intro key' i hi
      rw [lookup_put] at hi
      split_ifs at hi with hkey
      · cases hi
        have hzero : e.holders e.made = 0 := by
          rw [Engine.holders, countP_eq_zero]
          rintro ⟨sub, call⟩ hcall
          simpa using hnew sub call hcall
        simp only [Engine.edit, if_pos, hkey]
        refine ⟨Nat.lt_succ_self _, ⟨rfl, rfl, rfl, rfl⟩, ?_⟩
        exact congrArg (fun n : Nat => ((n + 1 : Nat) : Int)) hzero.symm
      · obtain ⟨hlt, hserves, hrefs⟩ := h.registered key' i hi
        simp only [Engine.edit, if_neg (Nat.ne_of_lt hlt), if_neg (Nat.ne_of_gt hlt)]
        exact ⟨Nat.lt_succ_of_lt hlt, hserves, by simp [hrefs, Engine.holders]⟩

variable {call : Subscription}

theorem Inv.holders_drop (h : Inv e) (hcall : (sub, call) ∈ e.subs) (i : Nat) :
    e.holders i = (drop e.subs sub).countP (fun entry => entry.2.part = i) +
      if call.part = i then 1 else 0 := by
  have hcount := countP_drop h.nodup hcall fun entry => decide (entry.2.part = i)
  simpa only [Engine.holders, decide_eq_true_eq] using hcount

theorem Inv.part_ne_of_last (h : Inv e) (hcall : (sub, call) ∈ e.subs)
    (hlast : (e.parts call.part).refs - 1 ≤ 0) {s : Nat} {c : Subscription}
    (hc : (s, c) ∈ drop e.subs sub) : c.part ≠ call.part := by
  intro heq
  obtain ⟨-, -, hrefs⟩ := h.registered _ _ (h.held sub call hcall)
  have hself := h.holders_drop hcall call.part
  rw [if_pos rfl] at hself
  have hpos : 0 < (drop e.subs sub).countP fun entry => entry.2.part = call.part :=
    countP_pos_iff.mpr ⟨(s, c), hc, by simpa using heq⟩
  omega

theorem Inv.release (h : Inv e) (hcall : (sub, call) ∈ e.subs) :
    Inv { release e call.key with subs := drop e.subs sub } := by
  have hpid := h.held sub call hcall
  have hsplit := h.holders_drop hcall
  have hsub : ∀ entry ∈ drop e.subs sub, entry ∈ e.subs :=
    fun entry hentry => mem_of_mem_filter hentry
  have hnodup : ((drop e.subs sub).map Prod.fst).Nodup :=
    h.nodup.sublist (filter_sublist.map _)
  unfold PartitionLifecycle.release
  rw [hpid]
  simp only
  split_ifs with hlast
  · refine ⟨?_, ?_, hnodup, fun s c hc => h.below s c (hsub _ hc)⟩
    · intro key' i hi
      simp only [lookup_drop] at hi
      split_ifs at hi with hkey
      have hne : i ≠ call.part := by
        rintro rfl
        exact hkey (h.key_eq hi hpid)
      obtain ⟨hlt, hserves, hrefs⟩ := h.registered key' i hi
      simp only [Engine.edit, if_neg hne]
      refine ⟨hlt, hserves, ?_⟩
      rw [hrefs, hsplit, if_neg (Ne.symm hne)]
      rfl
    · intro s c hc
      have hc' := h.held s c (hsub _ hc)
      have hne : c.key ≠ call.key := by
        intro heq
        rw [heq, hpid] at hc'
        exact h.part_ne_of_last hcall hlast hc (some.inj hc').symm
      simp only [lookup_drop, if_neg hne]
      exact hc'
  · refine ⟨?_, fun s c hc => h.held s c (hsub _ hc), hnodup, fun s c hc => h.below s c (hsub _ hc)⟩
    intro key' i hi
    obtain ⟨hlt, hserves, hrefs⟩ := h.registered key' i hi
    have hsplit := hsplit i
    by_cases heq : i = call.part
    · subst heq
      simp only [Engine.edit, if_pos]
      refine ⟨hlt, hserves, ?_⟩
      rw [hrefs, hsplit]
      simp [Engine.holders]
    · simp only [Engine.edit, if_neg heq]
      refine ⟨hlt, hserves, ?_⟩
      rw [hrefs, hsplit, if_neg (Ne.symm heq)]
      rfl

theorem Inv.edit (h : Inv e) (hpid : ∀ key, e.partitions.lookup key ≠ some pid)
    (f : Partition → Partition) : Inv (e.edit pid f) where
  registered key i hi := by
    have hne : i ≠ pid := by
      rintro rfl
      exact hpid key hi
    simp only [Engine.edit, if_neg hne]
    exact h.registered key i hi
  held := h.held
  nodup := h.nodup
  below := h.below

theorem Inv.setPhase (h : Inv e) (phase : Phase) : Inv (e.setPhase sub phase) :=
  ⟨h.registered, h.held, h.nodup, h.below⟩

theorem inv_step {a : Action} (h : Inv e) (hok : feedLasts e a)
    (hstep : step e a = some e') : Inv e' := by
  revert hok hstep
  fun_cases step e a <;> rintro hok ⟨⟩
  · rename_i hpart
    exact h.partitionFor hpart
  · exact h
  · exact h.setPhase _
  · exact h.setPhase _
  · exact h.setPhase _
  · rename_i hcall
    exact h.release (mem_of_lookup hcall)
  · refine h.edit (fun key hkey => ?_) _
    have hall := all_eq_true.mp hok _ (mem_of_lookup hkey)
    simp at hall
  · rename_i pid hends
    refine h.edit (fun key hkey => ?_) _
    obtain ⟨-, ⟨-, -, hclosed, hfeed⟩, -⟩ := h.registered key pid hkey
    simp [hclosed, hfeed] at hends

/-- In every run of lasting feeds every registered partition, and every one a subscription was
handed, answers. -/
theorem serviceable_of_feedLasts (trace : List Action) {e : Engine}
    (hok : Along step (fun e a => feedLasts e a = true) newEngine trace)
    (hrun : run step newEngine trace = some e) : Serviceable e :=
  (run_invariant (fun _ _ _ => inv_step) inv_newEngine hok hrun).serviceable

def sharedThenGone : List Action :=
  [.subscribe "acme|asset" true, .subscribe "acme|asset" true, .attach 0 true,
    .attach 1 false, .release 1, .detach 0, .release 0, .feedEnds 0, .loopReturns 0,
    .subscribe "acme|asset" true]

theorem serviceable_sharedThenGone : ∃ e, run step newEngine sharedThenGone = some e ∧
      e.partitions = [("acme|asset", 1)] ∧ Serviceable e :=
  ⟨_, rfl, rfl, serviceable_of_feedLasts sharedThenGone (by decide) rfl⟩

end Fabriq.Live.PartitionLifecycle
