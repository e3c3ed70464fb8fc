import Fabriq.Cluster.Network
import Fabriq.Lib.Machine

namespace Fabriq.Cluster.Unsubscribe

open Cluster.Network Cluster.ShardHandlers Lib Lib.Machine List Option

/-- No pump is started for a subscription that the owner of its partition has
unsubscribed. -/
def StaysGone (w : World) : Prop :=
  w.revived = []

/-- `b` serves the subscription when `a` takes over.  The cancel goes to `a`, which does not
serve it yet; then `a` claims up to the subscription's partition. -/
def cancelAfterTakeover : List Action :=
  [.reconcile "a", .reconcile "b", .membership ["b"], .subscribe "gw1" "acme" assets true,
    .deliver 0 false true, .work "b" true, .work "b" true, .membership ["a"],
    .cancel ⟨"gw1", 1⟩ true, .deliver 0 false true, .reconcile "a", .work "a" true,
    .work "a" true, .work "a" true, .work "a" true, .work "a" true]

/-- The row outlives the unsubscribe, and `a` starts a pump from it. -/
theorem cancelAfterTakeover_not_staysGone :
    ∃ w, run (step fabriq) start cancelAfterTakeover = some w ∧ ¬ StaysGone w := by
  exact ⟨_, rfl, fun h => absurd (show _ = [] from h) (by decide +kernel)⟩

def subscribes (subId : SubId) : Control SubId → Bool
  | .subscribe i _ _ _ => i = subId
  | _ => false

def revives (subId : SubId) : Job SubId → Bool
  | .put reg => reg.subId = subId
  | .start reg => reg.subId = subId
  | .restart reg => reg.subId = subId
  | _ => false

def erases (subId : SubId) : Job SubId → Bool
  | .delete i => i = subId
  | _ => false

def quiet (subId : SubId) (sh : Shard SubId) : Bool :=
  (sh.subs subId).isNone && sh.jobs.all fun job => !revives subId job

/-- The shard serves the subscription, or it has no row; no subscribe of it is on the
wire, and no other shard has to do with it. -/
def settled (w : World) (name : String) (subId : SubId) : Bool :=
  (((w.shard name).subs subId).isSome || (w.registry.lookup subId).isNone) &&
    (w.wire.all fun m => !subscribes subId m.2) &&
      w.shards.all fun e => decide (e.1 = name) || quiet subId e.2

/-- An owner reads an unsubscribe only when the subscription is settled, deletes succeed,
and a partition is not read while the delete of one of its rows is pending. -/
def cleanUnsubscribe (place : Placement) (w : World) : Action → Bool
  | .deliver i _ _ =>
    match w.wire[i]? with
    | some (name, c) => !retires place w name c || settled w name c.subId
    | none => true
  | .work name ok =>
    match (w.shard name).jobs with
    | .delete _ :: _ => ok
    | .claim p :: _ => !ok || (byPartitionNum w.registry p).all fun reg =>
      w.shards.all fun e => e.2.jobs.all fun job => !erases reg.subId job
    | _ => true
  | _ => true

variable {place : Placement} {subId : SubId} {sh : Shard SubId}

theorem quiet_iff : quiet subId sh ↔
    sh.subs subId = none ∧ ∀ job ∈ sh.jobs, revives subId job = false := by
  simp [quiet]

theorem quiet_newShard : quiet subId newShard := rfl

variable {ok : Bool}

theorem not_quiet_of_startedBy (h : startedBy sh ok = some subId) : quiet subId sh = false := by
  revert h
  fun_cases startedBy sh ok <;> rintro ⟨⟩ <;> simp [quiet, revives, *]

def Keyed (sh : Shard SubId) : Prop :=
  ∀ i sub, sh.subs i = some sub → sub.reg.subId = i

theorem Keyed.handleControl (h : Keyed sh) {self : String} {live : List String} {slid : Bool}
    (c : Control SubId) : Keyed (handleControl place self live slid sh c) := by
  fun_cases ShardHandlers.handleControl place self live slid sh c <;> try exact h
  · rename_i i _ _ sub hsub _ _
    intro j sub' hsub'
    simp only at hsub'
    split_ifs at hsub' with hj
    · cases hsub'
      exact (h i sub hsub).trans hj.symm
    · exact h j sub' hsub'
  · intro j sub' hsub'
    simp only at hsub'
    split_ifs at hsub'
    exact h j sub' hsub'

theorem Keyed.reconcileOwnership (h : Keyed sh) {self : String} {live : List String} :
    Keyed (reconcileOwnership place self live sh) :=
  fun i sub hsub => h i sub (filter_eq_some_iff.mp hsub).1

variable {live : List String} {self : String} {slid : Bool}

theorem quiet_handleControl {c : Control SubId} (h : quiet subId sh) (hkeyed : Keyed sh)
    (hc : subscribes subId c = false) : quiet subId (handleControl place self live slid sh c) := by
  obtain ⟨hsubs, hjobs⟩ := quiet_iff.mp h
  revert hc
  fun_cases handleControl place self live slid sh c <;> intro hc <;> try exact h
  · rename_i i _ _ _ reg _
    have hne : i ≠ subId := by simpa [subscribes] using hc
    exact quiet_iff.mpr ⟨hsubs, by simp [revives, reg, registration, hne]⟩
  · rename_i i _ _ sub hsub _ reg
    have hne : i ≠ subId := by
      rintro rfl
      simp [hsubs] at hsub
    refine quiet_iff.mpr ⟨(if_neg hne.symm).trans hsubs, ?_⟩
    simp [revives, reg, Registration.slide, hkeyed i sub hsub, hne]
  · refine quiet_iff.mpr ⟨?_, by simp [revives]⟩
    simp only
    split_ifs
    · rfl
    · exact hsubs

theorem quiet_unsubscribe (hidle : sh.jobs = []) :
    quiet subId (handleControl place self live slid sh (.unsubscribe subId)) := by
  simp only [handleControl]
  cases hsub : sh.subs subId with
  | none => simp [quiet, hidle, hsub]
  | some sub => simp [quiet, revives]

theorem quiet_reconcileOwnership (h : quiet subId sh) :
    quiet subId (reconcileOwnership place self live sh) := by
  refine quiet_iff.mpr ⟨?_, ?_⟩
  · simp [reconcileOwnership, releaseLost, (quiet_iff.mp h).1]
  · intro job hjob
    obtain ⟨p, -, rfl⟩ := List.mem_map.mp hjob
    rfl

/-- Nothing is left of a subscription but its row, while the delete of that is pending. -/
structure Gone (w : World) (subId : SubId) : Prop where
  unsent : ∀ m ∈ w.wire, subscribes subId m.2 = false
  quiet : ∀ name, quiet subId (w.shard name) = true
  row : w.registry.lookup subId = none ∨ ∃ name, .delete subId ∈ (w.shard name).jobs

structure Inv (w : World) : Prop where
  keyed : ∀ name, Keyed (w.shard name)
  rows : ∀ e ∈ w.registry, e.2.subId = e.1
  counted : ∀ subId p, (subId, p) ∈ w.issued → subId.seq ≤ w.seq subId.gateway
  retired : ∀ subId ∈ w.retired, subId.seq ≤ w.seq subId.gateway ∧ Gone w subId
  revived : w.revived = []

variable {place : Placement} {w v : World} {subId : SubId}

theorem inv_start : Inv start where
  keyed _ := nofun
  rows := forall_mem_nil _
  counted _ _ hmem := absurd hmem not_mem_nil
  retired := forall_mem_nil _
  revived := rfl

theorem subscribes_called {sent : List (String × Control SubId)} (h : Called w v sent)
    (hold : subId.seq ≤ w.seq subId.gateway) {m : String × Control SubId} (hm : m ∈ sent) :
    subscribes subId m.2 = false := by
  rcases m with ⟨name, _ | _ | _⟩
  · refine decide_eq_false ?_
    rintro rfl
    exact absurd hold (h.subscribes _ _ _ _ _ hm).not_ge
  · rfl
  · rfl

variable {name : String}

theorem Gone.enter (h : Gone w subId) (hidle : (w.shard name).jobs = [])
    (hquiet : Unsubscribe.quiet subId sh) :
    Gone (w.setShard name sh) subId := by
  refine ⟨h.unsent, ?_, h.row.imp_right ?_⟩
  · intro n
    rw [shard_setShard]
    split_ifs
    · exact hquiet
    · exact h.quiet n
  · rintro ⟨n, hmem⟩
    refine ⟨n, ?_⟩
    have hn : n ≠ name := by
      rintro rfl
      simp [hidle] at hmem
    rwa [shard_setShard, if_neg hn]

theorem Inv.called (h : Inv w) {sent : List (String × Control SubId)} (hcall : Called w v sent) :
    Inv v := by
  have hshard : ∀ name, v.shard name = w.shard name := fun name => shard_congr hcall.shards
  refine ⟨?_, ?_, ?_, ?_, hcall.revived.trans h.revived⟩
  · intro name
    rw [hshard]
    exact h.keyed name
  · rw [hcall.registry]
    exact h.rows
  · intro subId p hmem
    rcases hcall.issued subId p hmem with hold | ⟨hnew, -⟩
    · exact (h.counted subId p hold).trans (hcall.seq _)
    · exact hnew
  · intro subId hmem
    rw [hcall.retired] at hmem
    obtain ⟨hold, hgone⟩ := h.retired subId hmem
    refine ⟨hold.trans (hcall.seq _), ?_, ?_, ?_⟩
    · intro m hm
      rw [hcall.wire] at hm
      exact (mem_append.mp hm).elim (hgone.unsent m) (subscribes_called hcall hold)
    · intro name
      rw [hshard]
      exact hgone.quiet name
    · simpa only [hcall.registry, hshard] using hgone.row

theorem Inv.enter (h : Inv w) (hidle : (w.shard name).jobs = []) (hkeyed : Keyed sh)
    (hquiet : ∀ subId ∈ w.retired, quiet subId sh) : Inv (w.setShard name sh) := by
  refine ⟨?_, h.rows, h.counted, ?_, h.revived⟩
  · intro n
    rw [shard_setShard]
    split_ifs
    · exact hkeyed
    · exact h.keyed n
  · intro subId hmem
    obtain ⟨hold, hgone⟩ := h.retired subId hmem
    exact ⟨hold, hgone.enter hidle (hquiet subId hmem)⟩

theorem gone_of_settled (hidle : (w.shard name).jobs = []) (hsettled : settled w name subId) :
    Gone (w.setShard name
      (handleControl place name w.live slid (w.shard name) (.unsubscribe subId))) subId := by
  simp only [settled, Bool.and_eq_true, List.all_eq_true, Bool.not_eq_true',
    Bool.or_eq_true, decide_eq_true_eq] at hsettled
  obtain ⟨⟨hrow, hunsent⟩, hothers⟩ := hsettled
  have hothers : ∀ n, n = name ∨ quiet subId (w.shard n) :=
    shard_all (P := fun n sh => n = name ∨ quiet subId sh) (fun _ => .inr rfl) hothers
  refine ⟨hunsent, ?_, ?_⟩
  · intro n
    rw [shard_setShard]
    split_ifs with hn
    · exact quiet_unsubscribe hidle
    · exact (hothers n).resolve_left hn
  · rcases hrow with hserved | hnone
    · obtain ⟨sub, hsub⟩ := isSome_iff_exists.mp hserved
      refine Or.inr ⟨name, ?_⟩
      rw [shard_setShard, if_pos rfl]
      simp [handleControl, hsub]
    · exact .inl (isNone_iff_eq_none.mp hnone)

theorem Inv.receive (h : Inv w) {i : Nat} {keep : Bool} {c : Control SubId}
    (hm : w.wire[i]? = some (name, c)) (hok : cleanUnsubscribe place w (.deliver i keep slid))
    (hidle : (w.shard name).jobs = []) : Inv (receive place w i keep slid name c) := by
  have hentered : Inv (w.setShard name (handleControl place name w.live slid _ c)) :=
    h.enter hidle ((h.keyed name).handleControl c) fun subId hmem =>
      quiet_handleControl ((h.retired subId hmem).2.quiet name) (h.keyed name)
        ((h.retired subId hmem).2.unsent _ (mem_of_getElem? hm))
  have hgone : ∀ {subId}, Gone (w.setShard name
      (handleControl place name w.live slid (w.shard name) c)) subId →
        Gone (Network.receive place w i keep slid name c) subId := by
    intro subId hgone
    refine ⟨fun m hmem => ?_, hgone.quiet, hgone.row⟩
    have hsent : m ∈ w.wire := mem_wire_of_receive hmem
    exact hgone.unsent m hsent
  refine ⟨hentered.keyed, h.rows, h.counted, ?_, h.revived⟩
  intro subId hmem
  by_cases hold : subId ∈ w.retired
  · obtain ⟨hseq, hg⟩ := hentered.retired subId hold
    exact ⟨hseq, hgone hg⟩
  · simp only [Network.receive] at hmem
    split_ifs at hmem with hretires
    · obtain rfl := (mem_cons.mp hmem).resolve_right hold
      have hsettled : settled w name c.subId := by
        simpa [cleanUnsubscribe, hm, hretires] using hok
      cases c with
      | subscribe _ _ _ _ | reanchor _ _ _ => simp [retires] at hretires
      | unsubscribe gone =>
        obtain ⟨p, hp, -⟩ := (Option.any_eq_true _ _).mp hretires
        exact ⟨h.counted gone p (Assoc.mem_of_lookup hp), hgone (gone_of_settled hidle hsettled)⟩
    · exact absurd hmem hold

theorem lookup_ne_none {registry : Registry SubId} {reg : Registration SubId}
    (h : (subId, reg) ∈ registry) : registry.lookup subId ≠ none := by
  intro hnone
  simpa using lookup_eq_none_iff.mp hnone _ h

theorem Gone.not_claimed (h : Gone w subId) (hrows : ∀ e ∈ w.registry, e.2.subId = e.1)
    {p : Nat} (hok : ∀ reg ∈ byPartitionNum w.registry p, ∀ e ∈ w.shards,
      ∀ job ∈ e.2.jobs, erases reg.subId job = false)
    {reg : Registration SubId} (hreg : reg ∈ byPartitionNum w.registry p) : reg.subId ≠ subId := by
  intro heq
  obtain ⟨e, he, rfl⟩ := List.mem_map.mp (mem_of_mem_filter hreg)
  have hmem : (subId, e.2) ∈ w.registry := by
    rw [← heq, hrows e he]
    exact he
  obtain ⟨name, hdelete⟩ := h.row.resolve_left (lookup_ne_none hmem)
  have hpending : ∀ n, ∀ job ∈ (w.shard n).jobs, erases e.2.subId job = false :=
    shard_all (P := fun _ sh => ∀ job ∈ sh.jobs, erases e.2.subId job = false)
      (fun _ => nofun) (hok e.2 hreg)
  simpa [erases, heq] using hpending name _ hdelete

theorem Inv.rows_write (h : Inv w) (job : Job SubId) (ok : Bool) :
    ∀ e ∈ job.write w.registry ok, e.2.subId = e.1 := by
  intro e he
  cases job with
  | put reg =>
    cases ok with
    | false => exact h.rows e he
    | true =>
      rcases mem_cons.mp he with rfl | hold
      · rfl
      · exact h.rows e (mem_of_mem_filter hold)
  | delete gone =>
    cases ok with
    | false => exact h.rows e he
    | true => exact h.rows e (mem_of_mem_filter he)
  | start _ | restart _ | claim _ => exact h.rows e he

theorem Gone.worked (h : Gone w subId) (hrows : ∀ e ∈ w.registry, e.2.subId = e.1)
    {next : Shard SubId × Registry SubId} (hwork : work (w.shard name) w.registry ok = some next)
    (hok : cleanUnsubscribe place w (.work name ok)) : Gone (worked w name ok next) subId := by
  obtain ⟨job, rest, hjobs, hwrite, hnext⟩ := work_effect hwork
  obtain ⟨hsubs, hrevives⟩ := quiet_iff.mp (h.quiet name)
  have hjob : revives subId job = false := hrevives job (hjobs ▸ mem_cons_self)
  refine ⟨h.unsent, ?_, ?_⟩
  · intro n
    rw [shard_worked]
    split_ifs
    · refine quiet_iff.mpr ⟨?_, ?_⟩
      · refine eq_none_iff_forall_ne_some.mpr fun sub hsub => ?_
        rcases subs_of_work hwork hsub with hold | ⟨hstarted, -⟩
        · simp [hsubs] at hold
        · simpa [h.quiet name] using not_quiet_of_startedBy hstarted
      · intro job' hjob'
        rw [hnext] at hjob'
        rcases mem_append.mp hjob' with hnew | hold
        · obtain ⟨p, reg, rfl, rfl, hreg, rfl⟩ := mem_followUp job hnew
          refine decide_eq_false (h.not_claimed hrows ?_ hreg)
          simpa [cleanUnsubscribe, hjobs] using hok
        · exact hrevives job' (hjobs ▸ mem_cons_of_mem _ hold)
    · exact h.quiet n
  · -- The row stays away, or the job that deletes it is still there, or it is this one.
    have hlookup : w.registry.lookup subId = none → next.2.lookup subId = none := by
      intro hnone
      rw [hwrite]
      rcases lookup_write _ ok job subId with heq | ⟨reg, rfl, hreg, -⟩ | ⟨-, heq⟩
      · exact heq.trans hnone
      · simp [revives, hreg] at hjob
      · exact heq
    rcases h.row with hnone | ⟨n, hdelete⟩
    · exact .inl (hlookup hnone)
    · by_cases hn : n = name
      · subst hn
        rw [hjobs] at hdelete
        rcases mem_cons.mp hdelete with rfl | hrest
        · obtain rfl : ok := by simpa [cleanUnsubscribe, hjobs] using hok
          refine Or.inl ?_
          change next.2.lookup subId = none
          rw [hwrite]
          exact Assoc.lookup_drop.trans (if_pos rfl)
        · refine Or.inr ⟨n, ?_⟩
          rw [shard_worked, if_pos rfl, hnext]
          exact mem_append_right _ hrest
      · refine Or.inr ⟨n, ?_⟩
        rwa [shard_worked, if_neg hn]

theorem Inv.worked (h : Inv w) {next : Shard SubId × Registry SubId}
    (hwork : work (w.shard name) w.registry ok = some next)
    (hok : cleanUnsubscribe place w (.work name ok)) : Inv (worked w name ok next) := by
  refine ⟨?_, ?_, h.counted, ?_, ?_⟩
  · intro n
    rw [shard_worked]
    split_ifs
    · intro i sub hsub
      rcases subs_of_work hwork hsub with hold | ⟨-, hkey⟩
      · exact h.keyed name i sub hold
      · exact hkey
    · exact h.keyed n
  · obtain ⟨job, rest, -, hwrite, -⟩ := work_effect hwork
    change ∀ e ∈ next.2, e.2.subId = e.1
    rw [hwrite]
    exact h.rows_write job ok
  · intro subId hmem
    obtain ⟨hseq, hgone⟩ := h.retired subId hmem
    exact ⟨hseq, hgone.worked h.rows hwork hok⟩
  · have hnone : (startedBy (w.shard name) ok).filter (fun subId => subId ∈ w.retired) = none := by
      refine filter_eq_none_iff.mpr fun subId hstarted hretired => ?_
      have hquiet := (h.retired subId (of_decide_eq_true hretired)).2.quiet name
      simp [not_quiet_of_startedBy hstarted] at hquiet
    simp only [Network.worked, hnone, h.revived, toList_none, append_nil]

theorem inv_step {a : Action} (h : Inv w) (hok : cleanUnsubscribe place w a)
    (hstep : step place w a = some v) : Inv v := by
  cases step_effect hstep with
  | call sent hcall => exact h.called hcall
  | enter hidle hsh =>
    rcases hsh with rfl | rfl
    · exact h.enter hidle (fun _ => nofun) fun _ _ => quiet_newShard
    · exact h.enter hidle (h.keyed _).reconcileOwnership
        fun subId hmem => quiet_reconcileOwnership ((h.retired subId hmem).2.quiet _)
  | receive hm hidle => exact h.receive hm hok hidle
  | work hwork => exact h.worked hwork hok

/-- In every run of clean unsubscribes an unsubscribed subscription stays gone. -/
theorem staysGone_of_cleanUnsubscribe (place : Placement) (trace : List Action) {w : World}
    (hok : Along (step place) (fun w a => cleanUnsubscribe place w a = true) start trace)
    (hrun : run (step place) start trace = some w) : StaysGone w :=
  (run_invariant (fun _ _ _ => inv_step) inv_start hok hrun).revived

def cancelThenTakeover : List Action :=
  [.membership ["b"], .subscribe "gw1" "acme" assets true, .deliver 0 false true,
    .work "b" true, .work "b" true, .cancel ⟨"gw1", 1⟩ true, .deliver 0 false true,
    .work "b" true, .membership ["a"], .reconcile "a", .work "a" true, .work "a" true,
    .work "a" true, .work "a" true]

theorem staysGone_cancelThenTakeover :
    ∃ w, run (step fabriq) start cancelThenTakeover = some w ∧ w.retired = [⟨"gw1", 1⟩] ∧
      StaysGone w := by
  exact ⟨_, rfl, by decide +kernel,
    staysGone_of_cleanUnsubscribe fabriq cancelThenTakeover (by decide +kernel) rfl⟩

end Fabriq.Cluster.Unsubscribe
