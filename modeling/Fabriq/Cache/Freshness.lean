import Fabriq.Cache.ReadInvariant

namespace Fabriq.Cache.Freshness

open Lib Lib.Generations Lib.Machine Cache.ReadThrough List Option

variable {w w' : World} {i : Nat} {r : Read}

theorem Inv.fail_lead {f : Nat} (inv : Inv w) (hget : w.reads[i]? = some r)
    (hleads : r.phase.leads = some f) :
    Inv { w.setRead i { r with phase := .done none, landed := some none } with
      flights := Assoc.drop w.flights ⟨r.slot, f⟩ } := by
  have hok : ReadOk w r := inv.reads r (mem_of_getElem? hget)
  have hdone : ReadOk w { r with phase := .done none } :=
    hok.next hok.lgen_le (fun _ => rfl) (le_of_held_none rfl _) trivial
  have hok' : ReadOk w { r with phase := .done none, landed := some none } :=
    { hdone with landing := fun _ => rfl }
  refine inv.land hget hleads hok' rfl rfl (fun v hv => ?_) (.of_ne fun _ _ => Phase.noConfusion)
  cases hv

theorem Inv.fail (inv : Inv w) (hget : w.reads[i]? = some r)
    (hstep : ReadThrough.fail w i r = some w') : Inv w' := by
  have hok : ReadOk w r := inv.reads r (mem_of_getElem? hget)
  revert hstep
  fun_cases ReadThrough.fail w i r <;> rintro ⟨⟩
  · exact inv.fail_lead hget ‹_›
  all_goals
    have hp := ‹r.phase = _›
    have hidle := ‹r.phase.leads = none›
    rw [hp] at hidle
    exact inv.proceed hget hp hidle.symm (by simp [answered]) (fun _ => .inl) (by simp) hok.lgen_le
      trivial

theorem later_applyRequest (w : World) (stamp : Nat) (q : Request) :
    Later w (applyRequest w stamp q) := by
  cases q with
  | incr src => exact ⟨Nat.le_refl _, grows_bump _ _ _, .refl _⟩
  | bumpLocal src => exact ⟨Nat.le_refl _, .refl _, grows_bump _ _ _⟩
  | delete slot => exact ⟨Nat.le_refl _, grows_evict _ _ _, .refl _⟩
  | deleteLocal slot => exact ⟨Nat.le_refl _, .refl _, grows_evict _ _ _⟩

theorem applied_applyRequest (w : World) (stamp : Nat) (q : Request) :
    Applied (applyRequest w stamp q) stamp q := by
  cases q with
  | incr src | bumpLocal src | delete slot | deleteLocal slot =>
    exact ⟨_, mem_cons_self, rfl, Nat.le_refl _⟩

theorem Inv.applyRequest (inv : Inv w) (stamp : Nat) (q : Request) :
    Inv (applyRequest w stamp q) := by
  have hlater := later_applyRequest w stamp q
  cases q with
  | incr src => exact inv.mono hlater rfl rfl rfl (inv.redis.bump src stamp) inv.l1
  | bumpLocal src => exact inv.mono hlater rfl rfl rfl inv.redis (inv.l1.bump src stamp)
  | delete slot => exact inv.mono hlater rfl rfl rfl (inv.redis.evict slot stamp) inv.l1
  | deleteLocal slot => exact inv.mono hlater rfl rfl rfl inv.redis (inv.l1.evict slot stamp)

theorem Inv.withWrites (inv : Inv w) {writes : List Write} {db : Nat} (hdb : w.db ≤ db)
    (hwrites : ∀ wr ∈ writes, WriteOk { w with writes := writes, db := db } wr) :
    Inv { w with writes := writes, db := db } where
  redis := inv.redis
  l1 := inv.l1
  reads r hr := (inv.reads r hr).mono ⟨hdb, .refl _, .refl _⟩
  waits := inv.waits
  flights := inv.flights
  writes := hwrites

variable {wr : Write} {j : Nat}

theorem Inv.setWrite (inv : Inv w) {db : Nat} (hdb : w.db ≤ db)
    (hwr : WriteOk { w.setWrite j wr with db := db } wr) :
    Inv { w.setWrite j wr with db := db } := by
  apply inv.withWrites hdb
  exact forall_mem_set (fun other hold => (inv.writes other hold).mono ⟨hdb, .refl _, .refl _⟩) hwr

theorem Inv.commit (inv : Inv w) :
    Inv { w.setWrite j { wr with sent := some (w.db + 1, afterCommit wr.ctx [] wr.changes) } with
      db := w.db + 1 } := by
  apply inv.setWrite (Nat.le_succ _)
  intro stamp todo hsent
  cases hsent
  exact ⟨Nat.le_refl _, [], rfl, forall_mem_nil _⟩

theorem Inv.invalidate (inv : Inv w) {rest : List Request} (hget : w.writes[j]? = some wr)
    (hsent : wr.sent = some (stamp, q :: rest)) :
    Inv ((ReadThrough.applyRequest w stamp q).setWrite j
      { wr with sent := some (stamp, rest) }) := by
  obtain ⟨hstamp, sent, hscript, happlied⟩ :=
    inv.writes wr (mem_of_getElem? hget) stamp (q :: rest) hsent
  have hlater := later_applyRequest w stamp q
  apply (inv.applyRequest stamp q).setWrite (Nat.le_refl _)
  intro stamp' todo' hsent'
  cases hsent'
  refine ⟨Nat.le_trans hstamp hlater.db, sent ++ [q], ?_, ?_⟩
  · rw [append_assoc]
    exact hscript
  · intro q' hq'
    rcases mem_append.mp hq' with hold | hnew
    · exact ((happlied q' hold).mono hlater).mono ⟨Nat.le_refl _, .refl _, .refl _⟩
    · rw [mem_singleton] at hnew
      rw [hnew]
      exact (applied_applyRequest w stamp q).mono ⟨Nat.le_refl _, .refl _, .refl _⟩

variable {c : Ctx} {ch : Change} {changes : List Change} {seen : List String}

theorem mem_afterCommit_entity (hch : ch ∈ changes) (hseen : ch.entity ∉ seen)
    (hq : q ∈ invalidateEntity c ch.entity) : q ∈ afterCommit c seen changes := by
  induction changes generalizing seen with
  | nil => cases hch
  | cons first rest ih =>
    rw [afterCommit, append_assoc, mem_append, mem_append]
    by_cases heq : ch.entity = first.entity
    · rw [heq] at hq hseen
      rw [if_neg hseen]
      exact .inl hq
    · refine .inr (.inr (ih ?_ ?_))
      · rcases mem_cons.mp hch with rfl | hrest
        · exact absurd rfl heq
        · exact hrest
      · exact fun hmem => (mem_cons.mp hmem).elim heq hseen

theorem mem_afterCommit_row (hch : ch ∈ changes) {perScope : Bool}
    (hcache : ch.cache = some perScope)
    (hq : q ∈ invalidateRow c ch.entity perScope ch.id) : q ∈ afterCommit c seen changes := by
  induction changes generalizing seen with
  | nil => cases hch
  | cons first rest ih =>
    rw [afterCommit, append_assoc, mem_append, mem_append]
    rcases mem_cons.mp hch with rfl | hrest
    · rw [hcache]
      exact .inr (.inl hq)
    · exact .inr (.inr (ih hrest))

variable {ks : Keyspace} {key : String}

theorem resolve_congr {c' : Ctx} (htenant : c'.tenant.id = c.tenant.id)
    (hscope : c'.scopeOrEmpty = c.scopeOrEmpty) (p : Partition) : p.resolve c' = p.resolve c := by
  cases p with
  | global => rfl
  | tenant => simp only [Partition.resolve, htenant]
  | tenantScope => simp only [Partition.resolve, htenant, hscope]

theorem Inv.owes_of_seen (inv : Inv w) (hwr : wr ∈ w.writes) (hseen : wr.Seen c (slotFor c ks key))
    :
    Owes Slot.source w.redis (slotFor c ks key) (w.redis.gen (slotFor c ks key).source) wr.stamp ∧
      Owes Slot.source w.l1 (slotFor c ks key) (w.l1.gen (slotFor c ks key).source) wr.stamp := by
  obtain ⟨⟨⟨stamp, todo⟩, hsent, htodo⟩, htenant, hscope, ch, hch, hconcerns⟩ := hseen
  have hsent' : wr.sent = some (stamp, todo) := hsent
  have hstamp : wr.stamp = stamp := by
    rw [Write.stamp, hsent']
    rfl
  obtain ⟨-, sent, hscript, happlied⟩ := inv.writes wr hwr stamp todo hsent'
  have hdone : ∀ q ∈ afterCommit wr.ctx [] wr.changes, Applied w stamp q := by
    intro q hq
    rw [hscript, show todo = [] from htodo, append_nil] at hq
    exact happlied q hq
  have hpart : ∀ p : Partition, p.resolve wr.ctx = p.resolve c := resolve_congr htenant hscope
  rw [hstamp]
  rcases hconcerns with ⟨hentity, hname⟩ | ⟨perScope, hcache, hks, hkey⟩
  · have hsource : (slotFor c ks key).source = (.entity ch.entity, ks.partition.resolve c) := by
      rw [Slot.source, if_pos hentity, hname]
      rfl
    have hmem : ks.partition.resolve c ∈ entityPartitions wr.ctx :=
      hpart ks.partition ▸ resolve_mem_entityPartitions wr.ctx _
    obtain ⟨m, hm, hmscope, hle⟩ := hdone (.incr _)
      (mem_afterCommit_entity hch not_mem_nil (mem_append_left _ (mem_map_of_mem hmem)))
    obtain ⟨m', hm', hmscope', hle'⟩ := hdone (.bumpLocal (.entity ch.entity, ks.partition.resolve c))
      (mem_afterCommit_entity hch not_mem_nil (mem_append_right _ (mem_map_of_mem hmem)))
    exact ⟨inv.redis.owes hm (by rw [hmscope]; exact hsource) hle,
      inv.l1.owes hm' (by rw [hmscope']; exact hsource) hle'⟩
  · have hslot : slotFor wr.ctx (entityRowKeyspace ch.entity perScope) ch.id =
        slotFor c ks key := by
      have hks' : ks = entityRowKeyspace ch.entity perScope := hks
      have hkey' : key = ch.id := hkey
      rw [slotFor, slotFor, hpart, hks', hkey']
    obtain ⟨m, hm, hmscope, hle⟩ := hdone (.delete (slotFor c ks key))
      (mem_afterCommit_row hch hcache (by rw [invalidateRow, hslot]; exact mem_cons_self))
    obtain ⟨m', hm', hmscope', hle'⟩ := hdone (.deleteLocal (slotFor c ks key))
      (mem_afterCommit_row hch hcache (by
        rw [invalidateRow, hslot]
        exact mem_cons_of_mem _ mem_cons_self))
    exact ⟨inv.redis.owes hm (by rw [hmscope]; rfl) hle,
      inv.l1.owes hm' (by rw [hmscope']; rfl) hle'⟩

theorem foldr_max_eq_zero_or_mem (stamps : List Nat) :
    stamps.foldr max 0 = 0 ∨ stamps.foldr max 0 ∈ stamps := by
  induction stamps with
  | nil => exact .inl rfl
  | cons stamp rest ih =>
    rw [foldr_cons]
    rcases Nat.le_total stamp (rest.foldr max 0) with hle | hle
    · rw [Nat.max_eq_right hle]
      exact ih.imp_right (mem_cons_of_mem _)
    · rw [Nat.max_eq_left hle]
      exact .inr mem_cons_self

theorem dueFor_eq_zero_or_stamp (w : World) (c : Ctx) (slot : Slot) :
    dueFor w c slot = 0 ∨ ∃ wr ∈ w.writes, wr.Seen c slot ∧ dueFor w c slot = wr.stamp := by
  refine (foldr_max_eq_zero_or_mem _).imp_right fun hmem => ?_
  obtain ⟨wr, hwr, hstamp⟩ := mem_map.mp hmem
  obtain ⟨hin, hseen⟩ := mem_filter.mp hwr
  exact ⟨wr, hin, of_decide_eq_true hseen, hstamp.symm⟩

theorem Inv.stamp_le (inv : Inv w) (hwr : wr ∈ w.writes) : wr.stamp ≤ w.db := by
  rw [Write.stamp]
  cases hsent : wr.sent with
  | none => exact Nat.zero_le _
  | some sent => exact (inv.writes wr hwr sent.1 sent.2 hsent).1

theorem Inv.readOk_start (inv : Inv w) (method : Method) (layered : Bool) :
    ReadOk w ⟨slotFor c ks key, method, layered, dueFor w c (slotFor c ks key), 0,
      if layered then .l1Key else .resolve, none⟩ := by
  have howes : dueFor w c (slotFor c ks key) ≤ w.db ∧
      Owes Slot.source w.redis (slotFor c ks key) (w.redis.gen (slotFor c ks key).source)
        (dueFor w c (slotFor c ks key)) ∧
      Owes Slot.source w.l1 (slotFor c ks key) (w.l1.gen (slotFor c ks key).source)
        (dueFor w c (slotFor c ks key)) := by
    rcases dueFor_eq_zero_or_stamp w c _ with hzero | ⟨wr, hwr, hseen, hstamp⟩
    · rw [hzero]
      exact ⟨Nat.zero_le _, .inl rfl, .inl rfl⟩
    · rw [hstamp]
      exact ⟨inv.stamp_le hwr, inv.owes_of_seen hwr hseen⟩
  refine ⟨howes.1, fun hne => absurd rfl hne, Nat.zero_le _, howes.2.1, howes.2.2, ?_, ?_⟩
  · cases layered with
    | false | true => exact le_of_held_none rfl _
  · cases layered with
    | false | true => exact trivial

theorem Inv.startRead (inv : Inv w) (method : Method) (layered : Bool) :
    Inv (startRead w c ks key method layered) := by
  have hlater : Later w (ReadThrough.startRead w c ks key method layered) :=
    ⟨Nat.le_refl _, .refl _, .refl _⟩
  have hlookup : ∀ {i : Nat} {l : Read}, w.reads[i]? = some l →
      (ReadThrough.startRead w c ks key method layered).reads[i]? = some l := by
    intro i l hl
    obtain ⟨hi, -⟩ := List.getElem?_eq_some_iff.mp hl
    exact (getElem?_append_left hi).trans hl
  refine ⟨inv.redis, inv.l1, fun r hr => ?_, fun r hr => ?_, fun cell i hmem => ?_, fun wr hwr =>
    (inv.writes wr hwr).mono hlater⟩
  · rcases mem_append.mp hr with hold | hnew
    · exact (inv.reads r hold).mono hlater
    · rw [mem_singleton] at hnew
      rw [hnew]
      exact (inv.readOk_start method layered).mono hlater
  · rcases mem_append.mp hr with hold | hnew
    · intro leader f hphase
      obtain ⟨l, hl, hrest⟩ := inv.waits r hold leader f hphase
      exact ⟨l, hlookup hl, hrest⟩
    · rw [mem_singleton] at hnew
      rw [hnew]
      refine .of_ne fun leader f => ?_
      cases layered with
      | false | true => exact Phase.noConfusion
  · obtain ⟨l, hl, hrest⟩ := inv.flights cell i hmem
    exact ⟨l, hlookup hl, hrest⟩

theorem Inv.empty : Inv World.empty where
  redis := .empty
  l1 := .empty
  reads _ h := absurd h not_mem_nil
  waits _ h := absurd h not_mem_nil
  flights _ _ h := absurd h not_mem_nil
  writes _ h := absurd h not_mem_nil

theorem Inv.step {a : Action} (inv : Inv w) (hslow : NoSlowLoad w a)
    (hstep : ReadThrough.step w a = some w') : Inv w' := by
  cases a with
  | getOrLoad c ks key layered | getRow c entity perScope id layered =>
    cases hstep
    exact inv.startRead _ layered
  | advance i =>
    obtain ⟨r, hget, hadvance⟩ := bind_eq_some_iff.mp hstep
    exact inv.advance hget hslow hadvance
  | fail i =>
    obtain ⟨r, hget, hfail⟩ := bind_eq_some_iff.mp hstep
    exact inv.fail hget hfail
  | begin c changes =>
    cases hstep
    apply inv.withWrites (Nat.le_refl _)
    intro wr hwr
    rcases mem_append.mp hwr with hold | hnew
    · exact (inv.writes wr hold).mono ⟨Nat.le_refl _, .refl _, .refl _⟩
    · rw [mem_singleton] at hnew
      intro stamp todo hsent
      rw [hnew] at hsent
      cases hsent
  | commit j =>
    obtain ⟨wr, -, hcommit⟩ := bind_eq_some_iff.mp hstep
    split at hcommit
    · cases hcommit
    · cases hcommit
      exact inv.commit
  | invalidate j =>
    obtain ⟨wr, hget, hsend⟩ := bind_eq_some_iff.mp hstep
    split at hsend
    · next stamp q rest hsent =>
        cases hsend
        exact inv.invalidate hget hsent
    · cases hsend

theorem Inv.freshReads (inv : Inv w) : FreshReads w := by
  intro r hr v hdone
  apply (inv.reads r hr).held v
  rw [hdone]
  rfl

/-- Without a slow loader, no read returns what was loaded before a write whose invalidation had
returned when the read started. -/
theorem freshReads_run {trace : List Action} {w : World}
    (hok : Along step NoSlowLoad World.empty trace) (hrun : run step World.empty trace = some w) :
    FreshReads w := by
  have hinv : Inv w :=
    run_invariant (fun _ _ _ => Inv.step) Inv.empty hok hrun
  exact hinv.freshReads

def acme : Ctx := ⟨⟨"acme", Core.Tenant.valid_acme⟩, none⟩

def assetQuery : Keyspace := ⟨"asset:q", 1, .tenant, "asset"⟩

def writeAsset : List Action :=
  [.begin acme [⟨"asset", some false, "a1"⟩], .commit 0] ++ replicate 8 (.invalidate 0)

def orderly : List Action :=
  .getOrLoad acme assetQuery "all" true :: replicate 13 (.advance 0) ++ writeAsset ++
    .getOrLoad acme assetQuery "all" true :: replicate 13 (.advance 1) ++
    .getRow acme "asset" false "a1" true :: replicate 9 (.advance 2) ++
    .getOrLoad acme assetQuery "all" true :: replicate 2 (.advance 3)

/-- A list of assets is loaded before the write and stored after it, and read again. -/
def slowList : List Action :=
  .getOrLoad acme assetQuery "all" false :: replicate 7 (.advance 0) ++ writeAsset ++
    replicate 3 (.advance 0) ++ .getOrLoad acme assetQuery "all" false ::
    replicate 2 (.advance 1)

def slowRow : List Action :=
  .getRow acme "asset" false "a1" false :: replicate 3 (.advance 0) ++ writeAsset ++
    replicate 2 (.advance 0) ++ .getRow acme "asset" false "a1" false ::
    replicate 2 (.advance 1)

def outcome (trace : List Action) : Option (List (Nat × Phase)) :=
  (run step World.empty trace).map fun w => w.reads.map fun r => (r.due, r.phase)

theorem freshReads_run_orderly : Along step NoSlowLoad World.empty orderly ∧
    outcome orderly = some [(0, .done (some 0)), (1, .done (some 1)), (1, .done (some 1)),
      (1, .done (some 1))] ∧ ∃ w, run step World.empty orderly = some w ∧ FreshReads w := by
  have hok : Along step NoSlowLoad World.empty orderly := by decide +kernel
  exact ⟨hok, by decide +kernel, _, rfl, freshReads_run hok rfl⟩

/-- A value loaded before the write is stored under the generation that the write began, or
under the key of the row that it deleted. -/
theorem slow_loader_stores_stale :
    outcome slowList = some [(0, .done (some 0)), (1, .done (some 0))] ∧
    outcome slowRow = some [(0, .done (some 0)), (1, .done (some 0))] ∧
    (∃ w, run step World.empty slowList = some w ∧ ¬ FreshReads w) ∧
    ∃ w, run step World.empty slowRow = some w ∧ ¬ FreshReads w := by
  refine ⟨by decide +kernel, by decide +kernel, ⟨_, rfl, fun h => ?_⟩, _, rfl, fun h => ?_⟩
  · exact absurd (h _ (.tail _ (.head _)) 0 rfl) (by decide +kernel)
  · exact absurd (h _ (.tail _ (.head _)) 0 rfl) (by decide +kernel)

end Fabriq.Cache.Freshness
