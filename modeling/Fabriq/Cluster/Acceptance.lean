import Fabriq.Cluster.Network
import Fabriq.Lib.Machine

namespace Fabriq.Cluster.Acceptance

open Cluster.Network Cluster.ShardHandlers Lib Lib.Machine Live.Types List

def cause : Job SubId → Option SubId
  | .put reg => some reg.subId
  | .start reg => some reg.subId
  | .delete subId => some subId
  | .restart _ => none
  | .claim _ => none

/-- Every control message that was sent for the subscription has been processed. -/
def Processed (w : World) (subId : SubId) : Prop :=
  (∀ m ∈ w.wire, m.2.subId ≠ subId) ∧
    ∀ name, ∀ job ∈ (w.shard name).jobs, cause job ≠ some subId

def KeepsAccepted (w : World) : Prop :=
  ∀ subId p, (subId, p) ∈ w.issued → subId ∉ w.cancelled → Processed w subId →
    (w.registry.lookup subId).isSome = true

/-- The gateway addresses `b`, the only live shard; `a` is the only live one when `b` reads the
message. -/
def movedOn : List Action :=
  [.reconcile "b", .membership ["b"], .subscribe "gw1" "acme" assets true, .membership ["a"],
    .deliver 0 false true]

/-- `b` drops the subscription as not its own, and nothing sends it to `a`. -/
theorem movedOn_not_keepsAccepted :
    ∃ w, run (step fabriq) start movedOn = some w ∧ ¬ KeepsAccepted w := by
  refine ⟨_, rfl, fun h => ?_⟩
  have hkept := h ⟨"gw1", 1⟩ 3 (by decide +kernel) (by decide +kernel) ⟨by decide +kernel, ?_⟩
  · revert hkept
    decide +kernel
  · refine shard_all (P := fun _ sh => ∀ job ∈ sh.jobs, cause job ≠ some ⟨"gw1", 1⟩) nofun ?_
    decide +kernel

/-- The shard that reads a subscribe for the last time owns the partition, and the
registry takes the row. -/
def takenUp (place : Placement) (w : World) : Action → Bool
  | .deliver i keep _ =>
    match w.wire[i]? with
    | some (name, .subscribe _ _ tenantId query) =>
      keep || place.owns name (place.partitionOf tenantId query.entity) w.live
    | _ => true
  | .work name ok =>
    match (w.shard name).jobs with
    | .put reg :: _ => ok || (w.registry.lookup reg.subId).isSome
    | _ => true
  | _ => true

inductive OnRecord (w : World) (subId : SubId) : Prop
  | sent (name : String) (gatewayId tenantId : String) (query : LiveQuery)
      (hmem : (name, .subscribe subId gatewayId tenantId query) ∈ w.wire)
  | writing (name : String) (reg : Registration SubId)
      (hmem : .put reg ∈ (w.shard name).jobs) (hsub : reg.subId = subId)
  | stored (hrow : (w.registry.lookup subId).isSome = true)

structure Inv (w : World) : Prop where
  accepted : ∀ subId p, (subId, p) ∈ w.issued → subId ∉ w.cancelled → OnRecord w subId
  unsubscribes : ∀ name subId, (name, .unsubscribe subId) ∈ w.wire → subId ∈ w.cancelled
  deletes : ∀ name subId, .delete subId ∈ (w.shard name).jobs → subId ∈ w.cancelled

variable {place : Placement} {w v : World}

theorem inv_start : Inv start where
  accepted := nofun
  unsubscribes := nofun
  deletes := nofun

theorem Inv.keepsAccepted (h : Inv w) : KeepsAccepted w := by
  intro subId p hissued hcanc hprocessed
  cases h.accepted subId p hissued hcanc with
  | sent name gatewayId tenantId query hmem => exact absurd rfl (hprocessed.1 _ hmem)
  | writing name reg hmem hsub =>
    exact absurd (congrArg some hsub) (hprocessed.2 name _ hmem)
  | stored hrow => exact hrow

theorem OnRecord.mono {subId : SubId} (h : OnRecord w subId) (hwire : ∀ m ∈ w.wire, m ∈ v.wire)
    (hjobs : ∀ name, ∀ job ∈ (w.shard name).jobs, job ∈ (v.shard name).jobs)
    (hreg : v.registry = w.registry) : OnRecord v subId := by
  cases h with
  | sent name gatewayId tenantId query hmem =>
    exact .sent name gatewayId tenantId query (hwire _ hmem)
  | writing name reg hmem hsub => exact .writing name reg (hjobs name _ hmem) hsub
  | stored hrow => exact .stored (hreg ▸ hrow)

theorem Inv.called (h : Inv w) {sent : List (String × Control SubId)} (hcall : Called w v sent) :
    Inv v := by
  have hshard : ∀ name, v.shard name = w.shard name := fun name => shard_congr hcall.shards
  refine ⟨?_, ?_, ?_⟩
  · intro subId p hmem hlive
    rcases hcall.issued subId p hmem with hold | ⟨-, name, gatewayId, tenantId, query, hnew⟩
    · refine (h.accepted subId p hold fun hc => hlive (hcall.cancelled _ hc)).mono ?_ ?_
        hcall.registry
      · intro m hm
        rw [hcall.wire]
        exact mem_append_left _ hm
      · intro name job hjob
        rwa [hshard]
    · refine .sent name gatewayId tenantId query ?_
      rw [hcall.wire]
      exact mem_append_right _ hnew
  · intro name subId hmem
    rw [hcall.wire] at hmem
    rcases mem_append.mp hmem with hold | hnew
    · exact hcall.cancelled _ (h.unsubscribes name subId hold)
    · exact hcall.unsubscribes name subId hnew
  · intro name subId hmem
    rw [hshard] at hmem
    exact hcall.cancelled _ (h.deletes name subId hmem)

variable {name : String}

theorem Inv.enter (h : Inv w) {sh : Shard SubId} (hidle : (w.shard name).jobs = [])
    (hdeletes : ∀ subId, .delete subId ∈ sh.jobs → subId ∈ w.cancelled) :
    Inv (w.setShard name sh) := by
  refine ⟨?_, h.unsubscribes, ?_⟩
  · intro subId p hmem hlive
    refine (h.accepted subId p hmem hlive).mono (fun _ hm => hm) ?_ rfl
    intro i job hjob
    rw [shard_setShard]
    split_ifs with hi
    · subst hi
      simp [hidle] at hjob
    · exact hjob
  · intro i subId hmem
    rw [shard_setShard] at hmem
    split_ifs at hmem
    · exact hdeletes subId hmem
    · exact h.deletes i subId hmem

theorem Inv.receive (h : Inv w) {i : Nat} {keep slid : Bool} {c : Control SubId}
    (hm : w.wire[i]? = some (name, c)) (hok : takenUp place w (.deliver i keep slid))
    (hidle : (w.shard name).jobs = []) : Inv (receive place w i keep slid name c) := by
  have hentered :
      Inv (w.setShard name (handleControl place name w.live slid (w.shard name) c)) := by
    refine h.enter hidle fun subId hmem => h.unsubscribes name subId ?_
    rw [← delete_mem_handleControl hidle hmem]
    exact mem_of_getElem? hm
  refine ⟨?_, fun n subId hmem => h.unsubscribes n subId (mem_wire_of_receive hmem),
    hentered.deletes⟩
  intro subId p hissued hlive
  cases hentered.accepted subId p hissued hlive with
  | sent n gatewayId tenantId query hmem =>
    by_cases hkept : (n, .subscribe subId gatewayId tenantId query) ∈
        (Network.receive place w i keep slid name c).wire
    · exact .sent n gatewayId tenantId query hkept
    · -- It is the message that is handled now, so the row is written next.
      have hkeep : keep = false := by
        cases keep with
        | false => rfl
        | true => exact absurd hmem hkept
      obtain ⟨j, hj⟩ := mem_iff_getElem?.mp hmem
      have hij : j = i := by
        by_contra hne
        refine hkept ?_
        simp only [Network.receive, hkeep, Bool.false_eq_true, if_false]
        exact mem_eraseIdx_iff_getElem?.mpr ⟨j, hne, hj⟩
      rw [hij] at hj
      obtain ⟨rfl, rfl⟩ := Prod.mk.inj (Option.some.inj (hm.symm.trans hj))
      have howns : place.owns name (place.partitionOf tenantId query.entity) w.live := by
        simpa [takenUp, hm, hkeep] using hok
      refine .writing name (registration place subId gatewayId tenantId query) ?_ rfl
      have hshard : (Network.receive place w i keep slid name
          (.subscribe subId gatewayId tenantId query)).shard name = _ :=
        shard_setShard.trans (if_pos rfl)
      rw [hshard]
      simp [handleControl, registration, howns]
  | writing n reg hmem hsub => exact .writing n reg hmem hsub
  | stored hrow => exact .stored hrow

theorem Inv.worked (h : Inv w) {ok : Bool} {next : Shard SubId × Registry SubId}
    (hwork : work (w.shard name) w.registry ok = some next)
    (hok : takenUp place w (.work name ok)) :
    Inv (worked w name ok next) := by
  obtain ⟨job, rest, hjobs, hwrite, hnext⟩ := work_effect hwork
  have hjob : job ∈ (w.shard name).jobs := by
    rw [hjobs]
    exact mem_cons_self
  have hkeeps : ∀ subId, subId ∉ w.cancelled → (w.registry.lookup subId).isSome →
      (next.2.lookup subId).isSome := by
    intro subId hlive hrow
    rw [hwrite]
    rcases lookup_write _ ok job subId with heq | ⟨reg, -, -, heq⟩ | ⟨rfl, -⟩
    · rwa [heq]
    · rw [heq]
      rfl
    · exact absurd (h.deletes name subId hjob) hlive
  refine ⟨?_, h.unsubscribes, ?_⟩
  · intro subId p hissued hlive
    cases h.accepted subId p hissued hlive with
    | sent n gatewayId tenantId query hmem => exact .sent n gatewayId tenantId query hmem
    | writing n reg hmem hsub =>
      by_cases hn : n = name
      · subst hn
        rw [hjobs] at hmem
        rcases mem_cons.mp hmem with rfl | hrest
        · refine .stored ?_
          have hrow : ok ∨ (w.registry.lookup reg.subId).isSome := by
            simpa [takenUp, hjobs] using hok
          rcases hrow with rfl | hrow
          · change (next.2.lookup subId).isSome
            rw [hwrite]
            simp [Job.write, Assoc.lookup_put, hsub]
          · exact hkeeps subId hlive (hsub ▸ hrow)
        · refine .writing n reg ?_ hsub
          rw [shard_worked, if_pos rfl, hnext]
          exact mem_append_right _ hrest
      · refine .writing n reg ?_ hsub
        rwa [shard_worked, if_neg hn]
    | stored hrow => exact .stored (hkeeps subId hlive hrow)
  · intro n subId hmem
    rw [shard_worked] at hmem
    split_ifs at hmem
    · rw [hnext] at hmem
      rcases mem_append.mp hmem with hnew | hrest
      · obtain ⟨_, _, -, -, -, heq⟩ := mem_followUp job hnew
        simp at heq
      · exact h.deletes name subId (by rw [hjobs]; exact mem_cons_of_mem _ hrest)
    · exact h.deletes n subId hmem

theorem inv_step {a : Action} (h : Inv w) (hok : takenUp place w a)
    (hstep : step place w a = some v) : Inv v := by
  cases step_effect hstep with
  | call sent hcall => exact h.called hcall
  | enter hidle hsh =>
    refine h.enter hidle fun subId hmem => ?_
    rcases hsh with rfl | rfl
    · cases hmem
    · simp [reconcileOwnership] at hmem
  | receive hm hidle => exact h.receive hm hok hidle
  | work hwork => exact h.worked hwork hok

/-- In every run of such steps no accepted subscription is lost. -/
theorem keepsAccepted_of_takenUp (place : Placement) (trace : List Action) {w : World}
    (hok : Along (step place) (fun w a => takenUp place w a = true) start trace)
    (hrun : run (step place) start trace = some w) : KeepsAccepted w :=
  (run_invariant (fun _ _ _ => inv_step) inv_start hok hrun).keepsAccepted

def takeUpTwo : List Action :=
  [.membership ["b"], .subscribe "gw1" "acme" assets true, .subscribe "gw2" "acme" assets true,
    .deliver 0 false true, .work "b" true, .work "b" true, .deliver 0 false true,
    .work "b" true, .work "b" true, .cancel ⟨"gw1", 1⟩ true, .deliver 0 false true,
    .work "b" true]

theorem keepsAccepted_takeUpTwo : ∃ w, run (step fabriq) start takeUpTwo = some w ∧
      (w.registry.map fun row => row.1) = [⟨"gw2", 1⟩] ∧ KeepsAccepted w := by
  exact ⟨_, rfl, by decide +kernel, keepsAccepted_of_takenUp fabriq takeUpTwo (by decide +kernel) rfl⟩

end Fabriq.Cluster.Acceptance
