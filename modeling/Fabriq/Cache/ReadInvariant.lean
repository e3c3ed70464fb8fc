import Fabriq.Cache.ReadThrough

namespace Fabriq.Cache.Freshness

open Lib.Generations Cache.ReadThrough List Option Lib.Assoc

/-- The entry at a generation has been invalidated for what the read must see. -/
abbrev Owed (t : CacheTier) (r : Read) (g : Nat) : Prop :=
  Owes Slot.source t r.slot g r.due

/-- What a read has in hand at a phase: generations it resolved after it started. -/
def PhaseOk (w : World) (r : Read) : Prop :=
  match r.phase with
  | .l1Get => Owed w.l1 r r.lgen
  | .get gen => Owed w.redis r gen
  | .flight gen => Owed w.redis r gen ∧ gen ≤ w.redis.gen r.slot.source
  | .recheck f => f ≤ w.redis.gen r.slot.source
  | .recheckGet f gen => f ≤ gen ∧ Owed w.redis r gen
  | .setRaw _ gen _ => gen ≤ w.redis.gen r.slot.source
  | _ => True

def answered : Phase → Bool
  | .l1Put _ => true
  | .done _ => true
  | _ => false

structure ReadOk (w : World) (r : Read) : Prop where
  due_le : r.due ≤ w.db
  landing : r.landed ≠ none → answered r.phase = true
  lgen_le : r.lgen ≤ w.l1.gen r.slot.source
  redis : Owed w.redis r (w.redis.gen r.slot.source)
  l1 : Owed w.l1 r (w.l1.gen r.slot.source)
  held : ∀ v, r.phase.held = some v → r.due ≤ v
  phase : PhaseOk w r

/-- A flight that is led under `f` is good for a read that must see `d`: it holds nothing
older, or it has landed with nothing older. -/
def Serves (l : Read) (f d : Nat) : Prop :=
  (l.phase.leads = some f ∧ l.landed = none ∧ ∀ v, l.phase.held = some v → d ≤ v) ∨
    l.landed = some none ∨ ∃ v, l.landed = some (some v) ∧ d ≤ v

def WaitOk (w : World) (r : Read) : Prop :=
  ∀ leader f, r.phase = .wait leader f →
    ∃ l, w.reads[leader]? = some l ∧ l.slot = r.slot ∧ Owed w.redis r f ∧ Serves l f r.due

def FlightsOk (w : World) : Prop :=
  ∀ cell i, (cell, i) ∈ w.flights →
    ∃ l, w.reads[i]? = some l ∧ l.slot = cell.slot ∧ l.phase.leads = some cell.gen ∧
      l.landed = none

def Applied (w : World) (stamp : Nat) : Request → Prop
  | .incr src => ∃ m ∈ w.redis.marks, m.scope = .source src ∧ stamp ≤ m.stamp
  | .bumpLocal src => ∃ m ∈ w.l1.marks, m.scope = .source src ∧ stamp ≤ m.stamp
  | .delete slot => ∃ m ∈ w.redis.marks, m.scope = .slot slot ∧ stamp ≤ m.stamp
  | .deleteLocal slot => ∃ m ∈ w.l1.marks, m.scope = .slot slot ∧ stamp ≤ m.stamp

/-- The requests that a committed write has still to send are what is left of `AfterCommit`. -/
def WriteOk (w : World) (wr : Write) : Prop :=
  ∀ stamp todo, wr.sent = some (stamp, todo) → stamp ≤ w.db ∧
    ∃ sent, afterCommit wr.ctx [] wr.changes = sent ++ todo ∧ ∀ q ∈ sent, Applied w stamp q

structure Inv (w : World) : Prop where
  redis : Sound Slot.source w.redis
  l1 : Sound Slot.source w.l1
  reads : ∀ r ∈ w.reads, ReadOk w r
  waits : ∀ r ∈ w.reads, WaitOk w r
  flights : FlightsOk w
  writes : ∀ wr ∈ w.writes, WriteOk w wr

/-- Time has passed: the database and the generations have gone up, and marks have stayed. -/
structure Later (w w' : World) : Prop where
  db : w.db ≤ w'.db
  redis : Grows w.redis w'.redis
  l1 : Grows w.l1 w'.l1

variable {w w' : World} {r : Read}

theorem PhaseOk.mono (h : PhaseOk w r) (hlater : Later w w') : PhaseOk w' r := by
  have hgen := hlater.redis.gen_le r.slot.source
  revert h
  rw [PhaseOk, PhaseOk]
  split
  · exact fun h => h.mono hlater.l1 (Nat.le_refl _)
  · exact fun h => h.mono hlater.redis (Nat.le_refl _)
  · exact fun h => ⟨h.1.mono hlater.redis (Nat.le_refl _), Nat.le_trans h.2 hgen⟩
  · exact fun h => Nat.le_trans h hgen
  · exact fun h => ⟨h.1, h.2.mono hlater.redis (Nat.le_refl _)⟩
  · exact fun h => Nat.le_trans h hgen
  · exact id

theorem ReadOk.mono (h : ReadOk w r) (hlater : Later w w') : ReadOk w' r where
  due_le := Nat.le_trans h.due_le hlater.db
  landing := h.landing
  lgen_le := Nat.le_trans h.lgen_le (hlater.l1.gen_le _)
  redis := h.redis.mono hlater.redis (hlater.redis.gen_le _)
  l1 := h.l1.mono hlater.l1 (hlater.l1.gen_le _)
  held := h.held
  phase := h.phase.mono hlater

theorem Applied.mono {stamp : Nat} {q : Request} (h : Applied w stamp q) (hlater : Later w w') :
    Applied w' stamp q := by
  cases q with
  | incr src | delete slot =>
    obtain ⟨m, hm, hscope⟩ := h
    exact ⟨m, hlater.redis.marks m hm, hscope⟩
  | bumpLocal src | deleteLocal slot =>
    obtain ⟨m, hm, hscope⟩ := h
    exact ⟨m, hlater.l1.marks m hm, hscope⟩

theorem WriteOk.mono {wr : Write} (h : WriteOk w wr) (hlater : Later w w') : WriteOk w' wr := by
  intro stamp todo hsent
  obtain ⟨hstamp, sent, hscript, happlied⟩ := h stamp todo hsent
  exact ⟨Nat.le_trans hstamp hlater.db, sent, hscript, fun q hq => (happlied q hq).mono hlater⟩

theorem Inv.mono (inv : Inv w) (hlater : Later w w') (hreads : w'.reads = w.reads)
    (hflights : w'.flights = w.flights) (hwrites : w'.writes = w.writes)
    (hredis : Sound Slot.source w'.redis) (hl1 : Sound Slot.source w'.l1) : Inv w' where
  redis := hredis
  l1 := hl1
  reads r hr := (inv.reads r (hreads ▸ hr)).mono hlater
  waits r hr leader f hphase := by
    obtain ⟨l, hl, hslot, howed, hserves⟩ := inv.waits r (hreads ▸ hr) leader f hphase
    exact ⟨l, hreads ▸ hl, hslot, howed.mono hlater.redis (Nat.le_refl _), hserves⟩
  flights cell i hmem := by
    obtain ⟨l, hl, hrest⟩ := inv.flights cell i (hflights ▸ hmem)
    exact ⟨l, hreads ▸ hl, hrest⟩
  writes wr hwr := (inv.writes wr (hwrites ▸ hwr)).mono hlater

variable {i : Nat} {r' : Read}

theorem wait_after_set (hget : w.reads[i]? = some r) (hslot : r'.slot = r.slot)
    (hserves : ∀ f d, d ≤ w.db → Owes Slot.source w.redis r.slot f d → Serves r f d → Serves r' f d)
    {q : Read} (hq : WaitOk w q) (hdue : q.due ≤ w.db) : WaitOk (w.setRead i r') q := by
  intro leader f hphase
  obtain ⟨l, hl, hlslot, howed, hserve⟩ := hq leader f hphase
  by_cases hleader : leader = i
  · subst hleader
    obtain rfl : r = l := some.inj (hget.symm.trans hl)
    obtain ⟨hi, -⟩ := List.getElem?_eq_some_iff.mp hget
    refine ⟨r', getElem?_set_self hi, hslot.trans hlslot, howed, ?_⟩
    rw [Owed, ← hlslot] at howed
    exact hserves f q.due hdue howed hserve
  · exact ⟨l, (getElem?_set_ne (Ne.symm hleader)).trans hl, hlslot, howed, hserve⟩

theorem Inv.move (inv : Inv w) (hget : w.reads[i]? = some r) (hok : ReadOk w r')
    (hslot : r'.slot = r.slot) (hwait : WaitOk w r')
    (hserves : ∀ f d, d ≤ w.db → Owes Slot.source w.redis r.slot f d → Serves r f d →
      Serves r' f d) (flights : List (Cell Slot × Nat))
    (hflights : FlightsOk { w.setRead i r' with flights := flights }) :
    Inv { w.setRead i r' with flights := flights } where
  redis := inv.redis
  l1 := inv.l1
  reads q hq := by
    rcases mem_or_eq_of_mem_set hq with hold | rfl
    · exact (inv.reads q hold).mono ⟨Nat.le_refl _, .refl _, .refl _⟩
    · exact hok.mono ⟨Nat.le_refl _, .refl _, .refl _⟩
  waits q hq := by
    rcases mem_or_eq_of_mem_set hq with hold | rfl
    · exact wait_after_set hget hslot hserves (inv.waits q hold) (inv.reads q hold).due_le
    · exact wait_after_set hget hslot hserves hwait hok.due_le
  flights := hflights
  writes wr hwr := (inv.writes wr hwr).mono ⟨Nat.le_refl _, .refl _, .refl _⟩

theorem leads_ne_of_answered {p : Phase} (h : answered p) (f : Nat) : p.leads ≠ some f := by
  cases p <;> simp_all [answered, Phase.leads]

theorem WaitOk.of_ne (h : ∀ leader f, r.phase ≠ .wait leader f) : WaitOk w r :=
  fun leader f hphase => absurd hphase (h leader f)

theorem FlightsOk.keep {flights : List (Cell Slot × Nat)} (h : FlightsOk w)
    (hsub : ∀ cell j, (cell, j) ∈ flights → (cell, j) ∈ w.flights ∧ j ≠ i) :
    FlightsOk { w.setRead i r' with flights := flights } := by
  intro cell j hmem
  obtain ⟨hold, hne⟩ := hsub cell j hmem
  obtain ⟨l, hl, hrest⟩ := h cell j hold
  exact ⟨l, (getElem?_set_ne (Ne.symm hne)).trans hl, hrest⟩

/-- A read that leads a flight goes on leading it, and what it comes to hold is new enough for
those that wait. -/
theorem Inv.turn (inv : Inv w) (hget : w.reads[i]? = some r) (hok : ReadOk w r')
    (hslot : r'.slot = r.slot) (hlanded : r'.landed = r.landed)
    (hleads : r'.phase.leads = r.phase.leads)
    (hheld : ∀ v, r'.phase.held = some v → r.phase.held = some v ∨ ∀ f, r.phase.leads = some f →
      ∀ d, d ≤ w.db → Owes Slot.source w.redis r.slot f d → d ≤ v)
    (hwait : WaitOk w r') : Inv (w.setRead i r') := by
  refine inv.move hget hok hslot hwait ?_ _ ?_
  · rintro f d hd howes (⟨hf, hland, hold⟩ | hlanding)
    · refine .inl ⟨hleads.trans hf, hlanded.trans hland, fun v hv => ?_⟩
      rcases hheld v hv with hsame | hnew
      · exact hold v hsame
      · exact hnew f hf d hd howes
    · rw [Serves, hlanded]
      exact .inr hlanding
  · intro cell j hmem
    obtain ⟨l, hl, hlslot, hlleads, hlland⟩ := inv.flights cell j hmem
    by_cases hj : j = i
    · subst hj
      obtain rfl : r = l := some.inj (hget.symm.trans hl)
      obtain ⟨hi, -⟩ := List.getElem?_eq_some_iff.mp hget
      exact ⟨r', getElem?_set_self hi, hslot.trans hlslot, hleads.trans hlleads,
        hlanded.trans hlland⟩
    · exact ⟨l, (getElem?_set_ne (Ne.symm hj)).trans hl, hlslot, hlleads, hlland⟩

theorem Inv.land (inv : Inv w) (hget : w.reads[i]? = some r) {f : Nat}
    (hleads : r.phase.leads = some f) (hok : ReadOk w r') (hslot : r'.slot = r.slot)
    {answer : Option Nat} (hlanded : r'.landed = some answer)
    (hanswer : ∀ v, answer = some v → r.phase.held = some v) (hwait : WaitOk w r') :
    Inv { w.setRead i r' with flights := drop w.flights ⟨r.slot, f⟩ } := by
  have hflying : r.landed = none := by
    by_contra hne
    have hmem := mem_of_getElem? hget
    have hanswered := (inv.reads r hmem).landing hne
    exact leads_ne_of_answered hanswered f hleads
  refine inv.move hget hok hslot hwait ?_ _ ?_
  · rintro f' d - - (⟨-, -, hold⟩ | hlanding)
    · cases answer with
      | none => exact .inr (.inl hlanded)
      | some v => exact .inr (.inr ⟨v, hlanded, hold v (hanswer v rfl)⟩)
    · rw [hflying] at hlanding
      rcases hlanding with hnone | ⟨v, hsome, -⟩
      · cases hnone
      · cases hsome
  · apply inv.flights.keep
    intro cell j hmem
    obtain ⟨hold, hne⟩ := mem_drop.mp hmem
    refine ⟨hold, ?_⟩
    rintro rfl
    obtain ⟨l, hl, hlslot, hlleads, -⟩ := inv.flights cell j hold
    obtain rfl : r = l := some.inj (hget.symm.trans hl)
    obtain rfl : f = cell.gen := some.inj (hleads.symm.trans hlleads)
    exact hne (by rw [hlslot])

variable {p p₀ : Phase} {f gen v lgen : Nat} {slot : Slot}

theorem ReadOk.next (h : ReadOk w r) (hlgen : lgen ≤ w.l1.gen r.slot.source)
    (hactive : answered r.phase → answered p) (hheld : ∀ v, p.held = some v → r.due ≤ v)
    (hphase : PhaseOk w { r with lgen := lgen, phase := p }) :
    ReadOk w { r with lgen := lgen, phase := p } where
  due_le := h.due_le
  landing := fun hne => hactive (h.landing hne)
  lgen_le := hlgen
  redis := h.redis
  l1 := h.l1
  held := hheld
  phase := hphase

theorem answered_answer (r : Read) (v : Nat) : answered (r.answer v) := by
  rw [Read.answer]
  split <;> rfl

theorem held_answer (r : Read) (v : Nat) : (r.answer v).held = some v := by
  rw [Read.answer]
  split <;> rfl

theorem leads_answer (r : Read) (v : Nat) : (r.answer v).leads = none := by
  rw [Read.answer]
  split <;> rfl

theorem answer_ne_wait (r : Read) (v leader f : Nat) : r.answer v ≠ .wait leader f := by
  rw [Read.answer]
  split <;> simp

theorem phaseOk_of_answered (w : World) (h : answered r.phase) : PhaseOk w r := by
  rw [PhaseOk]
  split
  all_goals first | trivial | (next hp => rw [hp] at h; cases h)

theorem le_of_held_none (h : p.held = none) (d : Nat) : ∀ v, p.held = some v → d ≤ v := by
  intro v hv
  rw [h] at hv
  cases hv

section

variable (inv : Inv w)
include inv

section

variable (hget : w.reads[i]? = some r)
include hget

/-- A read goes on to its next phase; a value it did not hold is one that it may see, and new
enough for those that wait for its flight. -/
theorem Inv.proceed (hp : r.phase = p₀)
    (hleads : p.leads = p₀.leads) (hactive : answered p₀ → answered p)
    (hheld : ∀ v, p.held = some v → p₀.held = some v ∨ r.due ≤ v ∧ ∀ f, p₀.leads = some f →
      ∀ d, d ≤ w.db → Owes Slot.source w.redis r.slot f d → d ≤ v)
    (hwait : ∀ leader f, p ≠ .wait leader f) (hlgen : lgen ≤ w.l1.gen r.slot.source)
    (hphase : PhaseOk w { r with lgen := lgen, phase := p }) :
    Inv (w.setRead i { r with lgen := lgen, phase := p }) := by
  subst hp
  have hok : ReadOk w r := inv.reads r (mem_of_getElem? hget)
  refine inv.turn hget (hok.next hlgen hactive (fun v hv => ?_) hphase) rfl rfl hleads
    (fun v hv => (hheld v hv).imp_right And.right) (.of_ne hwait)
  exact (hheld v hv).elim (hok.held v) And.left

theorem Inv.answer (hp : r.phase = p₀) (hidle : p₀.leads = none) (hv : r.due ≤ v) :
    Inv (w.setRead i { r with phase := r.answer v }) := by
  refine inv.proceed hget hp ((leads_answer r v).trans hidle.symm) (fun _ => answered_answer r v)
    (fun v' hv' => .inr ?_) (answer_ne_wait r v)
    (inv.reads r (mem_of_getElem? hget)).lgen_le
    (phaseOk_of_answered w (answered_answer r v))
  rw [held_answer] at hv'
  exact ⟨some.inj hv' ▸ hv, by simp [hidle]⟩

theorem Inv.join {leader : Nat}
    (hp : r.phase = .flight gen) (howed : Owed w.redis r gen) (hresp : StoreOk w r (.flight gen))
    (hleader : w.flights.lookup ⟨r.slot, gen⟩ = some leader) :
    Inv (w.setRead i { r with phase := .wait leader gen }) := by
  have hok : ReadOk w r := inv.reads r (mem_of_getElem? hget)
  refine inv.turn hget (hok.next hok.lgen_le (by simp [hp, answered]) (le_of_held_none rfl _)
    trivial) rfl rfl (by rw [hp]; rfl) (by simp [Phase.held]) ?_
  intro leader' f hwait
  cases hwait
  obtain ⟨l, hl, hslot, hleads, hland⟩ := inv.flights _ _ (mem_of_lookup hleader)
  refine ⟨l, hl, hslot, howed, .inl ⟨hleads, hland, fun v hv => ?_⟩⟩
  exact howed.le (hresp leader hleader l hl v hv)

theorem Inv.lead (hp : r.phase = .flight gen) (hgen : gen ≤ w.redis.gen r.slot.source) :
    Inv { w.setRead i { r with phase := .recheck gen } with
      flights := put w.flights ⟨r.slot, gen⟩ i } := by
  have hok : ReadOk w r := inv.reads r (mem_of_getElem? hget)
  have hidle : r.phase.leads = none := by rw [hp]; rfl
  have hflying : r.landed = none := by
    by_contra hne
    simpa [hp, answered] using hok.landing hne
  have hok' : ReadOk w { r with phase := .recheck gen } :=
    hok.next hok.lgen_le (by simp [hp, answered]) (le_of_held_none rfl _) hgen
  refine inv.move hget hok' rfl (.of_ne fun _ _ => Phase.noConfusion) ?_ _ ?_
  · rintro f d - - (⟨hleads, -⟩ | hlanding)
    · rw [hidle] at hleads
      cases hleads
    · exact .inr hlanding
  · intro cell j hmem
    rcases mem_put.mp hmem with heq | ⟨hold, -⟩
    · cases heq
      obtain ⟨hi, -⟩ := List.getElem?_eq_some_iff.mp hget
      exact ⟨_, getElem?_set_self hi, rfl, rfl, hflying⟩
    · obtain ⟨l, hl, hslot, hleads, hland⟩ := inv.flights cell j hold
      have hj : j ≠ i := by
        rintro rfl
        rw [← some.inj (hget.symm.trans hl), hidle] at hleads
        cases hleads
      exact ⟨l, (getElem?_set_ne (Ne.symm hj)).trans hl, hslot, hleads, hland⟩

theorem Inv.le_landed {leader : Nat}
    (hp : r.phase = .wait leader gen) (hv : w.reads[leader]?.bind Read.landed = some (some v)) :
    r.due ≤ v := by
  obtain ⟨l, hl, -, -, hserves⟩ := inv.waits r (mem_of_getElem? hget) leader gen hp
  rw [hl, bind_some] at hv
  rcases hserves with ⟨-, hnone, -⟩ | hnone | ⟨v', hsome, hle⟩
  · rw [hnone] at hv
    cases hv
  · rw [hnone] at hv
    cases hv
  · rw [hsome] at hv
    cases hv
    exact hle

omit hget in
theorem Inv.store_redis
    (hgen : gen ≤ w.redis.gen slot.source) (hresp : Respects Slot.source w.redis slot gen v) :
    Inv { w with redis := w.redis.store slot gen v } := by
  have hlater : Later w { w with redis := w.redis.store slot gen v } :=
    ⟨Nat.le_refl _, grows_store _ _ _ _, .refl _⟩
  exact inv.mono hlater rfl rfl rfl (inv.redis.store hgen hresp) inv.l1

omit hget in
theorem Inv.store_l1
    (hgen : gen ≤ w.l1.gen slot.source) (hresp : Respects Slot.source w.l1 slot gen v) :
    Inv { w with l1 := w.l1.store slot gen v } := by
  have hlater : Later w { w with l1 := w.l1.store slot gen v } :=
    ⟨Nat.le_refl _, .refl _, grows_store _ _ _ _⟩
  exact inv.mono hlater rfl rfl rfl inv.redis (inv.l1.store hgen hresp)

theorem Inv.landed (hp : r.phase = .land f v) :
    Inv { w.setRead i { r with phase := r.answer v, landed := some (some v) } with
      flights := drop w.flights ⟨r.slot, f⟩ } := by
  have hok : ReadOk w r := inv.reads r (mem_of_getElem? hget)
  have hleads : r.phase.leads = some f ∧ r.phase.held = some v := by
    rw [hp]
    exact ⟨rfl, rfl⟩
  have hanswer : ReadOk w { r with phase := r.answer v } := by
    refine hok.next hok.lgen_le (fun _ => answered_answer r v) (fun v' hv' => ?_)
      (phaseOk_of_answered w (answered_answer r v))
    rw [held_answer, ← hleads.2] at hv'
    exact hok.held v' hv'
  refine inv.land hget hleads.1 { hanswer with landing := fun _ => answered_answer r v } rfl rfl
    (fun v' hv' => ?_) (.of_ne (answer_ne_wait r v))
  cases hv'
  exact hleads.2

theorem Inv.advance
    (hslow : NoSlowLoad w (.advance i)) (hstep : ReadThrough.advance w i r = some w') : Inv w' := by
  have hok : ReadOk w r := inv.reads r (mem_of_getElem? hget)
  have hphase : PhaseOk w r := hok.phase
  have hresp : StoreOk w r r.phase := hslow r hget
  revert hphase hresp hstep
  fun_cases ReadThrough.advance w i r <;> rintro ⟨⟩ <;> have hp := ‹r.phase = _› <;>
    rw [PhaseOk, hp] <;> intro hphase hresp
  · exact inv.proceed hget hp rfl id (by simp [Phase.held]) (by simp) (Nat.le_refl _) hok.l1
  · rename_i hv
    refine inv.proceed hget hp rfl (fun _ => rfl) (fun v' hv' => .inr ?_) (by simp) hok.lgen_le
      trivial
    cases hv'
    exact ⟨hphase.le_of_get inv.l1 hv, by simp [Phase.leads]⟩
  · exact inv.proceed hget hp rfl id (by simp [Phase.held]) (by simp) hok.lgen_le trivial
  · exact inv.proceed hget hp rfl id (by simp [Phase.held]) (by simp) hok.lgen_le hok.redis
  · exact inv.answer hget hp rfl (hphase.le_of_get inv.redis ‹_›)
  · exact inv.proceed hget hp rfl id (by simp [Phase.held]) (by simp) hok.lgen_le trivial
  · exact inv.proceed hget hp rfl id (by simp [Phase.held]) (by simp) hok.lgen_le trivial
  · exact inv.proceed hget hp rfl id (by simp [Phase.held]) (by simp) hok.lgen_le
      ⟨hok.redis, Nat.le_refl _⟩
  · exact inv.join hget hp hphase.1 hresp ‹_›
  · exact inv.lead hget hp hphase.2
  · exact inv.answer hget hp rfl (inv.le_landed hget hp ‹_›)
  · exact inv.proceed hget hp rfl (fun _ => rfl) (by simp [Phase.held]) (by simp) hok.lgen_le
      trivial
  · exact inv.proceed hget hp rfl id (by simp [Phase.held]) (by simp) hok.lgen_le
      ⟨hphase, hok.redis⟩
  · rename_i hv
    refine inv.proceed hget hp rfl id (fun v' hv' => .inr ?_) (by simp) hok.lgen_le trivial
    cases hv'
    refine ⟨hphase.2.le_of_get inv.redis hv, fun f' hf' d _ howes => ?_⟩
    cases hf'
    exact (howes.mono (.refl _) hphase.1).le_of_get inv.redis hv
  · exact inv.proceed hget hp rfl id (by simp [Phase.held]) (by simp) hok.lgen_le trivial
  · refine inv.proceed hget hp rfl id (fun v hv => .inr ?_) (by simp) hok.lgen_le trivial
    cases hv
    exact ⟨hok.due_le, fun _ _ _ hd _ => hd⟩
  · exact inv.proceed hget hp rfl id (fun _ => .inl) (by simp) hok.lgen_le (Nat.le_refl _)
  · rename_i f _ _ _
    have stored := inv.store_redis hphase hresp
    cases f with
    | none =>
      dsimp only
      split
      · exact stored.proceed hget hp rfl id (fun _ => .inl) (by simp) hok.lgen_le trivial
      · exact stored.proceed hget hp rfl (fun _ => rfl) (fun _ => .inl) (by simp) hok.lgen_le
          trivial
    | some f => exact stored.proceed hget hp rfl id (fun _ => .inl) (by simp) hok.lgen_le trivial
  · exact inv.landed hget hp
  · exact inv.proceed hget hp rfl (fun _ => rfl) (fun _ => .inl) (by simp) (Nat.le_refl _) trivial
  · exact (inv.store_l1 hok.lgen_le hresp).proceed hget hp rfl (fun _ => rfl) (fun _ => .inl)
      (by simp) hok.lgen_le trivial

end

end

end Fabriq.Cache.Freshness
