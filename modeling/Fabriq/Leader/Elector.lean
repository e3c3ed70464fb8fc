import Fabriq.Lib.Exclusive
import Fabriq.Lib.Machine

/-!
Leadership by an advisory lock.  Replicas campaign on sessions of their process's pool; the lock
belongs to a session, is reentrant in it and is free once the session is lost.
-/

namespace Fabriq.Leader.Elector

open Lib.Exclusive Lib.Machine List Option

structure Session where
  process : Nat
  alive : Bool
deriving DecidableEq

/-- The lock of the key: the session that holds it, and how often it was granted. -/
structure Lock where
  holder : Nat
  count : Nat
deriving DecidableEq

/-- A replica by where it is in `campaign`; `idle` is between two rounds of `Run`, or outside of
`TryLead`.  While it leads, its context may be cancelled. -/
inductive Campaign
  | idle
  | connected (session : Nat)
  | leading (session : Nat) (cancelled : Bool)
  | unlocking (session : Nat)
  | releasing (session : Nat)
deriving DecidableEq

def Campaign.session : Campaign → Option Nat
  | .idle => none
  | .connected s => some s
  | .leading s _ => some s
  | .unlocking s => some s
  | .releasing s => some s

structure Replica where
  process : Nat
  campaign : Campaign
deriving DecidableEq

def Replica.leads (r : Replica) : Bool :=
  match r.campaign with
  | .leading .. => true
  | _ => false

structure World where
  sessions : List Session
  lock : Option Lock
  replicas : List Replica
deriving DecidableEq

def World.alive (w : World) (s : Nat) : Bool :=
  (w.sessions[s]?.map Session.alive).getD false

def World.inUse (w : World) (s : Nat) : Bool :=
  w.replicas.any fun r => r.campaign.session == some s

/-- `pg_try_advisory_lock` in session `s`; `none` when another session holds the lock. -/
def tryAdvisoryLock (lock : Option Lock) (s : Nat) : Option Lock :=
  match lock with
  | none => some ⟨s, 1⟩
  | some l => if l.holder = s then some ⟨s, l.count + 1⟩ else none

/-- `pg_advisory_unlock` in session `s`. -/
def advisoryUnlock (lock : Option Lock) (s : Nat) : Option Lock :=
  match lock with
  | none => none
  | some l => if l.holder = s then (if l.count ≤ 1 then none else some ⟨s, l.count - 1⟩) else lock

def endSession (lock : Option Lock) (s : Nat) : Option Lock :=
  lock.filter fun l => l.holder != s

def World.setCampaign (w : World) (i : Nat) (r : Replica) (c : Campaign) : World :=
  { w with replicas := w.replicas.set i { r with campaign := c } }

inductive Action
  | connect (i : Nat) (reuse : Option Nat)
  | tryLock (i : Nat)
  | tryLockError (i : Nat) (granted : Bool)
  | heartbeat (i : Nat) (success : Bool)
  | cancel (i : Nat)
  | leadReturns (i : Nat)
  | unlock (i : Nat) (success : Bool)
  | release (i : Nat)
  | loseSession (s : Nat)

/-- The claim of a connected replica; a query on a session that is lost fails. -/
def World.tryLock (w : World) (i : Nat) (r : Replica) (s : Nat) : World :=
  if w.alive s then
    match tryAdvisoryLock w.lock s with
    | some l => { w.setCampaign i r (.leading s false) with lock := some l }
    | none => w.setCampaign i r (.releasing s)
  else w.setCampaign i r (.releasing s)

/-- A claim may fail after the server has granted it, a heartbeat with the session alive, and the
lead function may return at any time. -/
def step (w : World) : Action → Option World
  | .connect i reuse =>
    match w.replicas[i]? with
    | some ⟨process, .idle⟩ =>
      match reuse with
      | none =>
        some { w.setCampaign i ⟨process, .idle⟩ (.connected w.sessions.length) with
          sessions := w.sessions ++ [⟨process, true⟩] }
      | some s =>
        if (w.sessions[s]?.map Session.process) = some process ∧ w.inUse s = false then
          some (w.setCampaign i ⟨process, .idle⟩ (.connected s))
        else none
    | _ => none
  | .tryLock i =>
    match w.replicas[i]? with
    | some ⟨process, .connected s⟩ => some (w.tryLock i ⟨process, .connected s⟩ s)
    | _ => none
  | .tryLockError i granted =>
    match w.replicas[i]? with
    | some ⟨process, .connected s⟩ =>
      some { w.setCampaign i ⟨process, .connected s⟩ (.releasing s) with
        lock :=
          if granted && w.alive s then (tryAdvisoryLock w.lock s).or w.lock else w.lock }
    | _ => none
  | .heartbeat i success =>
    match w.replicas[i]? with
    | some ⟨process, .leading s false⟩ =>
      if success then if w.alive s then some w else none
      else some (w.setCampaign i ⟨process, .leading s false⟩ (.leading s true))
    | _ => none
  | .cancel i =>
    match w.replicas[i]? with
    | some ⟨process, .leading s c⟩ =>
      some (w.setCampaign i ⟨process, .leading s c⟩ (.leading s true))
    | _ => none
  | .leadReturns i =>
    match w.replicas[i]? with
    | some ⟨process, .leading s c⟩ =>
      some (w.setCampaign i ⟨process, .leading s c⟩ (.unlocking s))
    | _ => none
  | .unlock i success =>
    match w.replicas[i]? with
    | some ⟨process, .unlocking s⟩ =>
      some { w.setCampaign i ⟨process, .unlocking s⟩ (.releasing s) with
        lock := if success && w.alive s then advisoryUnlock w.lock s else w.lock }
    | _ => none
  | .release i =>
    match w.replicas[i]? with
    | some ⟨process, .releasing s⟩ => some (w.setCampaign i ⟨process, .releasing s⟩ .idle)
    | _ => none
  | .loseSession s =>
    match w.sessions[s]? with
    | some session =>
      some { w with
        sessions := w.sessions.set s { session with alive := false }
        lock := endSession w.lock s }
    | none => none

def newCluster (processes : List Nat) : World :=
  ⟨[], none, processes.map fun p => ⟨p, .idle⟩⟩

def AtMostOneLeads (w : World) : Prop :=
  OneBusy Replica.leads w.replicas

/-- A claim is made only while every replica inside its lead function still has its session. -/
def SessionsKept (w : World) : Action → Prop
  | .tryLock _ => ∀ r ∈ w.replicas, r.leads = true → ∀ s ∈ r.campaign.session, w.alive s = true
  | _ => True

instance (w : World) : (a : Action) → Decidable (SessionsKept w a)
  | .tryLock _ => inferInstanceAs (Decidable
      (∀ r ∈ w.replicas, r.leads = true → ∀ s ∈ r.campaign.session, w.alive s = true))
  | .connect .. | .tryLockError .. | .heartbeat .. | .cancel _ | .leadReturns _ | .unlock ..
  | .release _ | .loseSession _ => isTrue trivial

variable {w w' : World} {i : Nat} {r : Replica} {c : Campaign} {a : Action}

/-- A session serves one campaign, and a replica that leads with its session alive holds the
lock. -/
structure Inv (w : World) : Prop where
  apart : ∀ s, OneBusy (fun r => r.campaign.session == some s) w.replicas
  known : ∀ r ∈ w.replicas, ∀ s ∈ r.campaign.session, s < w.sessions.length
  held : ∀ r ∈ w.replicas, r.leads = true → ∀ s ∈ r.campaign.session, w.alive s = true →
    ∃ n, w.lock = some ⟨s, n⟩
  one : AtMostOneLeads w

theorem inv_newCluster (processes : List Nat) : Inv (newCluster processes) := by
  have hidle : ∀ r ∈ (newCluster processes).replicas, r.campaign = .idle := by
    intro r hr
    obtain ⟨p, -, rfl⟩ := List.mem_map.mp hr
    rfl
  refine ⟨?_, ?_, ?_, ?_⟩
  · intro s i j a b hi _ ha
    simp [hidle a (mem_of_getElem? hi), Campaign.session] at ha
  · intro r hr s hs
    simp [hidle r hr, Campaign.session] at hs
  · intro r hr hleads
    simp [Replica.leads, hidle r hr] at hleads
  · intro i j a b hi _ ha
    simp [Replica.leads, hidle a (mem_of_getElem? hi)] at ha

section

variable (h : Inv w)
include h

theorem Inv.setCampaign (hr : w.replicas[i]? = some r)
    (hsession : ∀ s ∈ c.session, r.campaign.session = some s)
    (hleads : ∀ s b, c = .leading s b → r.leads) {lock : Option Lock}
    (hlock : ∀ r' ∈ w.replicas, r'.leads → ∀ s ∈ r'.campaign.session,
      w.alive s → (∃ n, w.lock = some ⟨s, n⟩) → ∃ n, lock = some ⟨s, n⟩) :
    Inv { w.setCampaign i r c with lock := lock } := by
  have hmem := mem_of_getElem? hr
  have hnew : ({ r with campaign := c } : Replica).leads → r.leads := by
    intro hlead
    cases c with
    | leading s b => exact hleads s b rfl
    | idle | connected | unlocking | releasing => cases hlead
  refine ⟨fun s => (h.apart s).set fun hbusy => ⟨r, hr, ?_⟩, fun r' hr' s hs => ?_,
    fun r' hr' hlead s hs halive => ?_, h.one.set fun hlead => ⟨r, hr, hnew hlead⟩⟩
  · have hs : c.session = some s := by simpa using hbusy
    simp [hsession s hs]
  · rcases mem_or_eq_of_mem_set hr' with hr' | rfl
    · exact h.known r' hr' s hs
    · exact h.known r hmem s (hsession s hs)
  · rcases mem_or_eq_of_mem_set hr' with hr' | rfl
    · exact hlock r' hr' hlead s hs halive (h.held r' hr' hlead s hs halive)
    · exact hlock r hmem (hnew hlead) s (hsession s hs) halive
        (h.held r hmem (hnew hlead) s (hsession s hs) halive)

theorem Inv.proceed (hr : w.replicas[i]? = some r)
    (hsession : ∀ s ∈ c.session, r.campaign.session = some s)
    (hleads : ∀ s b, c = .leading s b → r.leads) : Inv (w.setCampaign i r c) :=
  h.setCampaign hr hsession hleads fun _ _ _ _ _ _ held => held

theorem Inv.ne_session (hr : w.replicas[i]? = some r) (hidle : r.leads = false)
    {s s' : Nat} (hs : r.campaign.session = some s) {r' : Replica} (hr' : r' ∈ w.replicas)
    (hlead : r'.leads) (hs' : r'.campaign.session = some s') : s' ≠ s := by
  rintro rfl
  obtain ⟨j, hj⟩ := mem_iff_getElem?.mp hr'
  obtain rfl := h.apart s' i j r r' hr hj (by simp [hs]) (by simp [hs'])
  rw [hr] at hj
  cases hj
  rw [hidle] at hlead
  cases hlead

theorem Inv.connect {p s : Nat} {sessions : List Session}
    (hsub : w.sessions.length ≤ sessions.length)
    (hlt : s < sessions.length) (hfree : w.inUse s = false)
    (halive : ∀ s' < w.sessions.length, (sessions[s']?.map Session.alive).getD false = w.alive s') :
    Inv { w.setCampaign i ⟨p, .idle⟩ (.connected s) with sessions := sessions } := by
  have hunused : ∀ r ∈ w.replicas, r.campaign.session ≠ some s := by
    intro r hr hs
    have := List.any_eq_false.mp hfree r hr
    simp [hs] at this
  refine ⟨fun s' => ?_, fun r hr' s' hs' => ?_, fun r hr' hlead s' hs' halive' => ?_,
    h.one.set fun hlead => absurd hlead (by simp [Replica.leads])⟩
  · by_cases hs : s' = s
    · subst hs
      have hnone : ∀ r ∈ w.replicas, (r.campaign.session == some s') = false := by
        intro r hr'
        simpa using hunused r hr'
      exact oneBusy_set hnone i _
    · refine (h.apart s').set fun hbusy => ?_
      have : some s = some s' := by simpa [Campaign.session] using hbusy
      exact absurd (some.inj this).symm hs
  · rcases mem_or_eq_of_mem_set hr' with hr' | rfl
    · exact Nat.lt_of_lt_of_le (h.known r hr' s' hs') hsub
    · cases hs'
      exact hlt
  · rcases mem_or_eq_of_mem_set hr' with hr' | rfl
    · refine h.held r hr' hlead s' hs' ?_
      rw [← halive s' (h.known r hr' s' hs')]
      exact halive'
    · cases hlead

theorem Inv.win {p s : Nat} (hr : w.replicas[i]? = some ⟨p, .connected s⟩)
    {l : Lock} (hlock : tryAdvisoryLock w.lock s = some l)
    (hkept : ∀ r ∈ w.replicas, r.leads → ∀ s ∈ r.campaign.session, w.alive s) :
    Inv { w.setCampaign i ⟨p, .connected s⟩ (.leading s false) with lock := some l } := by
  have hholder : l.holder = s ∧ ∀ l', w.lock = some l' → l'.holder = s := by
    revert hlock
    fun_cases tryAdvisoryLock w.lock s <;> rintro ⟨⟩
    · exact ⟨rfl, nofun⟩
    · rename_i hs
      exact ⟨rfl, fun _ hl' => Option.some.inj hl' ▸ hs⟩
  -- a replica that leads has its session, which then holds the lock, and it is another one
  have hnobody : ∀ r ∈ w.replicas, r.leads = false := by
    intro r hmem
    by_contra hlead
    rw [Bool.not_eq_false] at hlead
    cases hs : r.campaign.session with
    | none =>
      rw [Replica.leads] at hlead
      split at hlead
      · rename_i hc
        rw [hc] at hs
        cases hs
      · cases hlead
    | some s' =>
      obtain ⟨n, hn⟩ := h.held r hmem hlead s' hs (hkept r hmem hlead s' hs)
      exact h.ne_session hr rfl rfl hmem hlead hs (hholder.2 _ hn)
  refine ⟨fun s' => (h.apart s').set fun hbusy => ⟨_, hr, hbusy⟩, fun r hr' s' hs' => ?_,
    fun r hr' hlead s' hs' _ => ?_, oneBusy_set hnobody i _⟩
  · rcases mem_or_eq_of_mem_set hr' with hr' | rfl
    · exact h.known r hr' s' hs'
    · exact h.known _ (mem_of_getElem? hr) s' hs'
  · rcases mem_or_eq_of_mem_set hr' with hr' | rfl
    · rw [hnobody r hr'] at hlead
      cases hlead
    · cases hs'
      exact ⟨l.count, by rw [← hholder.1]⟩

theorem inv_loseSession {s : Nat} {session : Session} (hs : w.sessions[s]? = some session) :
    Inv { w with
      sessions := w.sessions.set s { session with alive := false }
      lock := endSession w.lock s } where
  apart := h.apart
  known := fun r hr s' hs' => by simpa using h.known r hr s' hs'
  held := by
    intro r hr hlead s' hs' halive
    have hlt := (List.getElem?_eq_some_iff.mp hs).1
    have hne : s' ≠ s := by
      rintro rfl
      simp [World.alive, hlt] at halive
    have halive' : w.alive s' := by
      simpa [World.alive, Ne.symm hne] using halive
    obtain ⟨n, hn⟩ := h.held r hr hlead s' hs' halive'
    exact ⟨n, by simp [endSession, hn, hne]⟩
  one := h.one

theorem inv_step (hok : SessionsKept w a) (hstep : step w a = some w') : Inv w' := by
  revert hok hstep
  fun_cases step w a <;> rintro hok ⟨⟩
  · have hfresh : w.inUse w.sessions.length = false := by
      rw [World.inUse, List.any_eq_false]
      intro r hr' hs
      exact absurd (h.known r hr' _ (by simpa using hs)) (Nat.lt_irrefl _)
    refine h.connect (by simp) (by simp) hfresh fun s' hs' => ?_
    rw [List.getElem?_append_left hs', World.alive]
  · rename_i s hfree
    obtain ⟨session, hsession, -⟩ := map_eq_some_iff.mp hfree.1
    have hlt : s < w.sessions.length := (List.getElem?_eq_some_iff.mp hsession).1
    exact h.connect (Nat.le_refl _) hlt hfree.2 fun _ _ => rfl
  · rename_i hr
    rw [World.tryLock]
    split
    · split
      · rename_i l hl
        exact h.win hr hl hok
      · exact h.proceed hr (fun _ hs => hs) nofun
    · exact h.proceed hr (fun _ hs => hs) nofun
  · rename_i s hr
    refine h.setCampaign (c := .releasing s) hr (fun _ hs => hs) nofun ?_
    rintro r' hr' hlead s' hs' - ⟨n, hn⟩
    have hne := h.ne_session hr rfl rfl hr' hlead hs'
    refine ⟨n, ?_⟩
    split
    · simp [tryAdvisoryLock, hn, hne]
    · exact hn
  · exact h
  · rename_i hr _
    exact h.proceed hr (fun _ hs => hs) fun _ _ _ => rfl
  · rename_i hr
    exact h.proceed hr (fun _ hs => hs) fun _ _ _ => rfl
  · rename_i hr
    exact h.proceed hr (fun _ hs => hs) nofun
  · rename_i s hr
    refine h.setCampaign (c := .releasing s) hr (fun _ hs => hs) nofun ?_
    rintro r' hr' hlead s' hs' - ⟨n, hn⟩
    have hne := h.ne_session hr rfl rfl hr' hlead hs'
    refine ⟨n, ?_⟩
    split
    · simp [advisoryUnlock, hn, hne]
    · exact hn
  · rename_i hr
    exact h.proceed hr nofun nofun
  · rename_i hs
    exact inv_loseSession h hs

end

/-- In every such run at most one replica is inside its lead function. -/
theorem at_most_one_leads {processes : List Nat} {actions : List Action} {w : World}
    (hok : Along step SessionsKept (newCluster processes) actions)
    (hrun : run step (newCluster processes) actions = some w) : AtMostOneLeads w := by
  exact (run_invariant (fun _ _ _ => inv_step) (inv_newCluster _) hok hrun).one

def abdication : List Action :=
  [.connect 0 none, .connect 1 none, .tryLock 0, .tryLock 1, .loseSession 0, .heartbeat 0 false,
    .leadReturns 0, .unlock 0 false, .release 1, .connect 1 (some 1), .tryLock 1]

theorem at_most_one_leads_abdication : ∃ w, run step (newCluster [0, 1]) abdication = some w ∧
      w.replicas.map Replica.leads = [false, true] ∧ AtMostOneLeads w := by
  have hok : Along step SessionsKept (newCluster [0, 1]) abdication := by decide
  exact ⟨_, rfl, by decide, at_most_one_leads hok rfl⟩

def lostBetweenHeartbeats : List Action :=
  [.connect 0 none, .connect 1 none, .tryLock 0, .heartbeat 0 true, .loseSession 0, .tryLock 1]

theorem two_replicas_lead : ∃ w, run step (newCluster [0, 1]) lostBetweenHeartbeats = some w ∧
      w.replicas.map Replica.leads = [true, true] ∧ ¬ AtMostOneLeads w := by
  refine ⟨_, rfl, rfl, fun hone => ?_⟩
  exact absurd (hone 0 1 _ _ rfl rfl rfl rfl) (by decide)

end Fabriq.Leader.Elector
