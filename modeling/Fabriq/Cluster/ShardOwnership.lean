import Fabriq.Cluster.ShardHandlers
import Fabriq.Lib.Machine

namespace Fabriq.Cluster.ShardOwnership

open Cluster.ShardHandlers Lib.Machine List Option

variable {ι : Type} [DecidableEq ι]

/-- One shard and the registry it shares.  `reconciled` is the live set of the last reconcile,
until a control message is handled. -/
structure State (ι : Type) where
  shard : Shard ι
  registry : Registry ι
  reconciled : Option (List String)

def start : State ι :=
  ⟨newShard, [], none⟩

inductive Action (ι : Type)
  | control (live : List String) (slid : Bool) (c : Control ι)
  | reconcile (live : List String)
  | work (ok : Bool)
  | foreign (registry : Registry ι)

def step (place : Placement) (self : String) (s : State ι) : Action ι → Option (State ι)
  | .control live slid c =>
    if s.shard.jobs.isEmpty then
      some { s with
        shard := handleControl place self live slid s.shard c
        reconciled := none }
    else none
  | .reconcile live =>
    if s.shard.jobs.isEmpty then
      some { s with
        shard := reconcileOwnership place self live s.shard
        reconciled := some live }
    else none
  | .work ok =>
    (work s.shard s.registry ok).map fun next =>
      { s with shard := next.1, registry := next.2 }
  | .foreign registry => some { s with registry := registry }

/-- When a reconcile is through, every subscription of the shard is in a partition it owns; and
at any time it has one running pump at most. -/
def OwnsWhatItServes (place : Placement) (self : String) (s : State ι) : Prop :=
  (s.shard.jobs.isEmpty = true → ∀ live, s.reconciled = some live →
    ∀ subId sub, s.shard.subs subId = some sub →
      place.owns self sub.reg.partition live = true) ∧
    ∀ subId, (s.shard.pumps.filter fun pump => pump.2 = subId).length ≤ 1

def subscribeAssets (subId : ι) : Control ι :=
  .subscribe subId "gw1" "acme" assets

/-- `b` is the only live shard when it accepts the subscription, and not live at the reconciles
before and after. -/
def flicker : List (Action String) :=
  [.reconcile ["a"], .control ["b"] true (subscribeAssets "gw1-1"), .work true, .work true,
    .reconcile ["a"]]

/-- The partition was never in the remembered owned set, so the reconcile does not find it lost.
-/
theorem flicker_not_ownsWhatItServes :
    ∃ s, run (step fabriq "b") start flicker = some s ∧ ¬ OwnsWhatItServes fabriq "b" s := by
  refine ⟨_, rfl, fun h => ?_⟩
  have howns := h.1 rfl ["a"] rfl "gw1-1" _ rfl
  revert howns
  decide +kernel

/-- A subscription is accepted only in a partition that the last reconcile gave to the
shard, and only once. -/
def settledSubscribe (place : Placement) (self : String) (s : State ι) : Action ι → Bool
  | .control live _ (.subscribe subId _ tenantId query) =>
    let p := place.partitionOf tenantId query.entity
    !place.owns self p live || (s.shard.owned p && (s.shard.subs subId).isNone)
  | _ => true

section

structure Pumped (sh : Shard ι) : Prop where
  served : ∀ n subId, (n, subId) ∈ sh.pumps → ∃ sub, sh.subs subId = some sub ∧ sub.pump = n
  nodup : (sh.pumps.map Prod.fst).Nodup
  below : ∀ n subId, (n, subId) ∈ sh.pumps → n < sh.started

variable {sh : Shard ι} {subId : ι}

omit [DecidableEq ι] in
theorem pumped_newShard : Pumped (newShard : Shard ι) :=
  ⟨fun _ _ hmem => absurd hmem not_mem_nil, .nil, fun _ _ hmem =>
    absurd hmem not_mem_nil⟩

section

variable (h : Pumped sh)
include h

theorem Pumped.length_le_one (subId : ι) :
    (sh.pumps.filter fun pump => pump.2 = subId).length ≤ 1 := by
  have hsame : ∀ pump ∈ sh.pumps.filter fun pump => pump.2 = subId,
      ∃ sub, sh.subs subId = some sub ∧ pump.1 = sub.pump := by
    rintro ⟨n, i⟩ hpump
    obtain ⟨hmem, hi⟩ := mem_filter.mp hpump
    obtain rfl : i = subId := by simpa using hi
    obtain ⟨sub, hsub, hn⟩ := h.served n i hmem
    exact ⟨sub, hsub, hn.symm⟩
  have hnodup : ((sh.pumps.filter fun pump => pump.2 = subId).map _).Nodup :=
    h.nodup.sublist (filter_sublist.map _)
  generalize sh.pumps.filter _ = running at hsame hnodup
  match running with
  | [] => exact Nat.zero_le _
  | [_] => exact le_rfl
  | first :: second :: rest =>
    obtain ⟨sub, hsub, hfirst⟩ := hsame first (by simp)
    obtain ⟨sub', hsub', hsecond⟩ := hsame second (by simp)
    rw [hsub] at hsub'
    cases hsub'
    simp [hfirst, hsecond] at hnodup

theorem Pumped.startSub {reg : Registration ι} (ok : Bool)
    (hnew : sh.subs reg.subId = none) : Pumped (startSub sh reg ok) := by
  cases ok with
  | false => exact h
  | true =>
    refine ⟨?_, ?_, ?_⟩
    · intro n subId hpump
      rcases mem_cons.mp hpump with heq | hpump
      · cases heq
        exact ⟨_, if_pos rfl, rfl⟩
      · obtain ⟨sub, hsub, hn⟩ := h.served n subId hpump
        have hne : subId ≠ reg.subId := by
          rintro rfl
          simp [hnew] at hsub
        exact ⟨sub, (if_neg hne).trans hsub, hn⟩
    · refine nodup_cons.mpr ⟨?_, h.nodup⟩
      rw [List.mem_map]
      rintro ⟨⟨n, subId⟩, hpump, heq⟩
      exact absurd (h.below n subId hpump) (Nat.not_lt.mpr (Nat.le_of_eq heq.symm))
    · intro n subId hpump
      rcases mem_cons.mp hpump with heq | hpump
      · cases heq
        exact Nat.lt_succ_self _
      · exact Nat.lt_succ_of_lt (h.below n subId hpump)

omit [DecidableEq ι] in
theorem Pumped.stop {sh' : Shard ι} {keep : Nat × ι → Bool}
    (hpumps : sh'.pumps = sh.pumps.filter keep) (hstarted : sh'.started = sh.started)
    (hsubs : ∀ n subId sub, (n, subId) ∈ sh.pumps → sh.subs subId = some sub →
      sub.pump = n → keep (n, subId) →
      ∃ sub', sh'.subs subId = some sub' ∧ sub'.pump = n) : Pumped sh' where
  served n subId hpump := by
    rw [hpumps, mem_filter] at hpump
    obtain ⟨sub, hsub, hn⟩ := h.served n subId hpump.1
    exact hsubs n subId sub hpump.1 hsub hn hpump.2
  nodup := by
    rw [hpumps]
    exact h.nodup.sublist (filter_sublist.map _)
  below n subId hpump := by
    rw [hpumps, mem_filter] at hpump
    rw [hstarted]
    exact h.below n subId hpump.1

omit [DecidableEq ι] in
theorem Pumped.jobs (jobs : List (Job ι)) : Pumped { sh with jobs := jobs } :=
  ⟨h.served, h.nodup, h.below⟩

omit [DecidableEq ι] in
theorem Pumped.releaseLost (owned owned' : Nat → Bool) : Pumped (releaseLost owned owned' sh) := by
  refine h.stop rfl rfl ?_
  intro n subId sub _ hsub hn hkeep
  refine ⟨sub, ?_, hn⟩
  simp only [hsub, all_some, hn, beq_self_eq_true, Bool.and_true] at hkeep
  simp only [ShardHandlers.releaseLost, hsub, filter_some, hkeep, if_true]

theorem Pumped.handleControl (place : Placement) (self : String)
    (live : List String) (slid : Bool) (c : Control ι) :
    Pumped (handleControl place self live slid sh c) := by
  cases c with
  | subscribe subId gatewayId tenantId query =>
    simp only [ShardHandlers.handleControl]
    split_ifs
    · exact h.jobs _
    · exact h
  | reanchor subId cursor limit =>
    simp only [ShardHandlers.handleControl]
    cases hsub : sh.subs subId with
    | none => exact h
    | some sub =>
      split_ifs
      · refine ⟨fun n i hpump => ?_, h.nodup, h.below⟩
        obtain ⟨sub', hsub', hn⟩ := h.served n i hpump
        by_cases hi : i = subId
        · subst hi
          rw [hsub] at hsub'
          cases hsub'
          exact ⟨_, if_pos rfl, hn⟩
        · exact ⟨sub', (if_neg hi).trans hsub', hn⟩
      · exact h
  | unsubscribe subId =>
    simp only [ShardHandlers.handleControl]
    cases hsub : sh.subs subId with
    | none => exact h
    | some sub =>
      refine h.stop rfl rfl ?_
      intro n i sub' _ hsub' hn hkeep
      have hi : i ≠ subId := by
        rintro rfl
        rw [hsub] at hsub'
        cases hsub'
        simp [hn] at hkeep
      exact ⟨sub', (if_neg hi).trans hsub', hn⟩

end

end

def inOwned (owned : Nat → Bool) : Job ι → Bool
  | .start reg => owned reg.partition
  | .restart reg => owned reg.partition
  | .claim p => owned p
  | .put _ => true
  | .delete _ => true

/-- What the shard serves, or is about to serve, is in the partitions it remembers. -/
structure Inv (place : Placement) (me : String) (s : State ι) : Prop where
  served : ∀ subId sub, s.shard.subs subId = some sub →
    s.shard.owned sub.reg.partition = true
  tasks : ∀ job ∈ s.shard.jobs, inOwned s.shard.owned job = true
  starting : ∀ reg, .start reg ∈ s.shard.jobs → s.shard.subs reg.subId = none ∧
    (s.shard.jobs = [.put reg, .start reg] ∨ s.shard.jobs = [.start reg])
  agrees : ∀ live, s.reconciled = some live → s.shard.owned = newOwned place me live
  pumped : Pumped s.shard

variable {place : Placement} {self : String} {s t : State ι}

omit [DecidableEq ι] in
theorem inv_start : Inv place self (start : State ι) where
  served := nofun
  tasks := forall_mem_nil _
  starting _ hmem := absurd hmem not_mem_nil
  agrees := nofun
  pumped := pumped_newShard

section

variable (h : Inv place self s)
include h

theorem Inv.ownsWhatItServes : OwnsWhatItServes place self s := by
  constructor
  · intro _ live hlive subId sub hsub
    have howned := h.served subId sub hsub
    rw [h.agrees live hlive] at howned
    exact (Bool.and_eq_true_iff.mp howned).2
  · exact h.pumped.length_le_one

theorem Inv.control {live : List String} {slid : Bool}
    {c : Control ι} (hok : settledSubscribe place self s (.control live slid c))
    (ht : t = { s with
      shard := handleControl place self live slid s.shard c
      reconciled := none }) : Inv place self t := by
  have hpumped := h.pumped.handleControl place self live slid c
  have hnone : ∀ live', (none : Option (List String)) = some live' →
      s.shard.owned = newOwned place self live' := by simp
  subst ht
  revert hok hpumped
  fun_cases handleControl place self live slid s.shard c <;> intro hok hpumped
  · rename_i subId gatewayId tenantId query reg howns
    have hplaced : s.shard.owned (place.partitionOf tenantId query.entity) ∧
        s.shard.subs subId = none := by
      simpa [settledSubscribe, registration] using
        (Bool.or_eq_true_iff.mp hok).resolve_left (by simpa [registration, reg] using howns)
    refine ⟨h.served, ?_, ?_, hnone, hpumped⟩
    · simp [reg, inOwned, registration, hplaced.1]
    · intro reg' hreg
      obtain rfl : reg' = reg := by simpa using hreg
      exact ⟨hplaced.2, .inl rfl⟩
  · exact ⟨h.served, h.tasks, h.starting, hnone, hpumped⟩
  · exact ⟨h.served, h.tasks, h.starting, hnone, hpumped⟩
  · rename_i hsub _ reg
    refine ⟨?_, by simp [inOwned], by simp, hnone, hpumped⟩
    intro i sub' hsub'
    simp only at hsub'
    split_ifs at hsub'
    · cases hsub'
      exact (h.served _ _ hsub :)
    · exact h.served i sub' hsub'
  · exact ⟨h.served, h.tasks, h.starting, hnone, hpumped⟩
  · exact ⟨h.served, h.tasks, h.starting, hnone, hpumped⟩
  · refine ⟨?_, by simp [inOwned], by simp, hnone, hpumped⟩
    intro i sub' hsub'
    simp only at hsub'
    split_ifs at hsub'
    exact h.served i sub' hsub'

omit [DecidableEq ι] in
theorem Inv.reconcile {live : List String}
    (ht : t = { s with
      shard := reconcileOwnership place self live s.shard
      reconciled := some live }) : Inv place self t := by
  subst ht
  refine ⟨?_, ?_, ?_, ?_, ?_⟩
  · intro subId sub hsub
    obtain ⟨hsub, hkept⟩ := filter_eq_some_iff.mp hsub
    have hstill : newOwned place self live sub.reg.partition := by
      simpa [lostSub, h.served subId sub hsub] using hkept
    exact hstill
  · intro job hjob
    obtain ⟨p, hp, rfl⟩ := List.mem_map.mp hjob
    exact (Bool.and_eq_true_iff.mp (mem_filter.mp hp).2).1
  · intro reg hreg
    obtain ⟨p, -, hp⟩ := List.mem_map.mp hreg
    simp at hp
  · rintro _ ⟨⟩
    rfl
  · have hrel := h.pumped.releaseLost s.shard.owned (newOwned place self live)
    exact ⟨hrel.served, hrel.nodup, hrel.below⟩

variable {rest : List (Job ι)}

theorem Inv.startSub {reg : Registration ι} (ok : Bool)
    (howned : s.shard.owned reg.partition) (hnew : s.shard.subs reg.subId = none)
    (hrest : ∀ job ∈ rest, inOwned s.shard.owned job) (hstart : ∀ reg, .start reg ∉ rest) :
    Inv place self { s with shard := startSub { s.shard with jobs := rest } reg ok } := by
  have hpumped := (h.pumped.jobs rest).startSub ok hnew
  cases ok with
  | false =>
    exact ⟨h.served, hrest, fun reg hreg => absurd hreg (hstart reg), h.agrees, hpumped⟩
  | true =>
    refine ⟨?_, hrest, fun reg hreg => absurd hreg (hstart reg), h.agrees, hpumped⟩
    intro subId sub hsub
    simp only [ShardHandlers.startSub, if_true] at hsub
    split_ifs at hsub
    · cases hsub
      exact howned
    · exact h.served subId sub hsub

omit [DecidableEq ι] in
theorem Inv.tasks_cons {job : Job ι} (hjobs : s.shard.jobs = job :: rest) :
    inOwned s.shard.owned job ∧ ∀ next ∈ rest, inOwned s.shard.owned next :=
  forall_mem_cons.mp (hjobs ▸ h.tasks)

omit [DecidableEq ι] in
theorem Inv.start_not_mem {job : Job ι} (hjobs : s.shard.jobs = job :: rest)
    (hjob : ∀ reg, job ≠ .put reg) (reg : Registration ι) : .start reg ∉ rest := by
  intro hreg
  have hmem : .start reg ∈ s.shard.jobs := by
    rw [hjobs]
    exact mem_cons_of_mem _ hreg
  rcases (h.starting reg hmem).2 with heq | heq
  · rw [hjobs] at heq
    exact hjob reg (cons.inj heq).1
  · rw [hjobs] at heq
    rw [(cons.inj heq).2] at hreg
    simp at hreg

omit [DecidableEq ι] in
theorem Inv.setJobs {jobs : List (Job ι)} (htasks : ∀ job ∈ jobs, inOwned s.shard.owned job)
    (hstart : ∀ reg, .start reg ∉ jobs) (registry : Registry ι) :
    Inv place self { s with shard := { s.shard with jobs := jobs }, registry := registry } :=
  ⟨h.served, htasks, fun reg hreg => absurd hreg (hstart reg), h.agrees, h.pumped.jobs jobs⟩

theorem Inv.work {ok : Bool} {next : Shard ι × Registry ι}
    (hwork : work s.shard s.registry ok = some next)
    (ht : t = { s with shard := next.1, registry := next.2 }) : Inv place self t := by
  subst ht
  revert hwork
  fun_cases ShardHandlers.work s.shard _ ok <;> rintro ⟨⟩
  · rename_i reg rest hjobs
    refine ⟨h.served, (h.tasks_cons hjobs).2, fun reg' hreg => ?_, h.agrees, h.pumped.jobs rest⟩
    obtain ⟨hnew, hshape⟩ := h.starting reg' (by rw [hjobs]; exact mem_cons_of_mem _ hreg)
    rw [hjobs] at hshape
    refine ⟨hnew, .inr ?_⟩
    rcases hshape with heq | heq
    · exact (cons.inj heq).2
    · exact absurd (cons.inj heq).1 (by simp)
  · rename_i reg rest hjobs
    have hmem : .start reg ∈ s.shard.jobs := by
      rw [hjobs]
      exact mem_cons_self
    exact h.startSub ok (h.tasks_cons hjobs).1 (h.starting reg hmem).1 (h.tasks_cons hjobs).2
      (h.start_not_mem hjobs (by simp))
  · rename_i hjobs _
    exact h.setJobs (h.tasks_cons hjobs).2 (h.start_not_mem hjobs (by simp)) _
  · rename_i hjobs hexists
    obtain ⟨howned, hrest⟩ := h.tasks_cons hjobs
    exact h.startSub ok howned (by simpa using hexists) hrest (h.start_not_mem hjobs (by simp))
  · rename_i p rest hjobs
    obtain ⟨howned, hrest⟩ := h.tasks_cons hjobs
    refine h.setJobs ?_ ?_ _
    · intro job hjob
      rcases mem_append.mp hjob with hnew | hold
      · obtain ⟨_, reg, ⟨⟩, -, hreg, rfl⟩ := mem_followUp (.claim p) hnew
        obtain rfl : reg.partition = p := by simpa using (mem_filter.mp hreg).2
        exact howned
      · exact hrest job hold
    · intro reg hreg
      rcases mem_append.mp hreg with hnew | hold
      · obtain ⟨_, _, -, -, -, heq⟩ := mem_followUp (.claim p) hnew
        simp at heq
      · exact h.start_not_mem hjobs (by simp) reg hold
  · rename_i hjobs
    exact h.setJobs (h.tasks_cons hjobs).2 (h.start_not_mem hjobs (by simp)) _

theorem inv_step {a : Action ι} (hok : settledSubscribe place self s a)
    (hstep : step place self s a = some t) : Inv place self t := by
  revert hok hstep
  fun_cases step place self s a <;> intro hok hstep <;> try cases hstep
  · exact h.control hok rfl
  · exact h.reconcile rfl
  · obtain ⟨next, hwork, ht⟩ := map_eq_some_iff.mp hstep
    exact h.work hwork ht.symm
  · exact ⟨h.served, h.tasks, h.starting, h.agrees, h.pumped⟩

end

/-- In every run of such subscribes the shard serves what it owns after every reconcile, with
one pump for each subscription. -/
theorem ownsWhatItServes_of_settledSubscribe (place : Placement) (self : String)
    (trace : List (Action ι)) {s : State ι}
    (hok : Along (step place self) (fun s a => settledSubscribe place self s a = true) start
      trace) (hrun : run (step place self) start trace = some s) : OwnsWhatItServes place self s :=
  (run_invariant (fun _ _ _ h => inv_step h) inv_start hok
    hrun).ownsWhatItServes

def handedOver : List (Action String) :=
  .reconcile ["a"] :: List.replicate 256 (.work true) ++
    [.control ["a"] true (subscribeAssets "gw1-1"), .work true, .work true,
      .control ["a"] true (.reanchor "gw1-1" none 5), .work true, .reconcile ["b"]]

theorem ownsWhatItServes_handedOver : ∃ s, run (step fabriq "a") start handedOver = some s ∧
      (s.registry.map fun row => row.1) = ["gw1-1"] ∧ s.shard.pumps = [] ∧
      OwnsWhatItServes fabriq "a" s := by
  have hend : (run (step fabriq "a") start handedOver).map
      (fun s => (s.registry.map fun row => row.1, s.shard.pumps)) =
        some (["gw1-1"], []) := by decide +kernel
  obtain ⟨s, hrun, hs⟩ := map_eq_some_iff.mp hend
  obtain ⟨hregistry, hpumps⟩ := Prod.mk.inj hs
  exact ⟨s, hrun, hregistry, hpumps,
    ownsWhatItServes_of_settledSubscribe fabriq "a" handedOver (by decide +kernel) hrun⟩

end Fabriq.Cluster.ShardOwnership
