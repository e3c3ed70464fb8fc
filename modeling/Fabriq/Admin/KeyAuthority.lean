import Fabriq.Core.Tenant
import Fabriq.Lib.Assoc
import Fabriq.Lib.Machine

namespace Fabriq.Admin.KeyAuthority

open Lib Lib.Machine List Option
open Core.Tenant (valid)

/-- A stored key; one without a tenant is good for every tenant. -/
structure KeyRecord where
  id : String
  tenantId : String
  canManageKeys : Bool
  revoked : Bool := false
  expiresAt : Option Int := none

inductive Method
  | get
  | post
  | delete
  deriving DecidableEq

/-- A request: `bearer` is its token, `compatible` whether the version header is absent or of the
server's major; the last three fields are the body of a request for a key. -/
structure Request where
  method : Method
  path : String
  bearer : Option String
  selector : String := ""
  compatible : Bool := true
  label : String := ""
  tenantId : String := ""
  canManageKeys : Bool := false

/-- The key store by hash, and the keys in the hands of the client. -/
structure World where
  store : List (String × KeyRecord)
  held : List String

/-- The server; `known` are the tenants of the registry. -/
structure Server where
  basePath : String
  hashKey : String → String
  known : String → Bool

/-- The segments of a path, of which the router drops the empty ones. -/
def routePath (p : String) : List String :=
  ((p.toList.splitOn '/').filter (· ≠ [])).map String.ofList

def isUnderRoute (path route : List String) : Bool :=
  route.isPrefixOf path

section

variable (srv : Server)

def Server.route (name : String) : List String :=
  routePath srv.basePath ++ [name]

def Server.isTenants (r : Request) : Bool :=
  isUnderRoute (routePath r.path) (srv.route "tenants")

def Server.isKeys (r : Request) : Bool :=
  isUnderRoute (routePath r.path) (srv.route "keys")

def Server.isIssue (r : Request) : Bool :=
  r.method = .post && routePath r.path = srv.route "keys"

def Server.isLogout (r : Request) : Bool :=
  r.method = .post && routePath r.path = srv.route "logout"

def Server.isStatus (r : Request) : Bool :=
  r.method = .get && routePath r.path = srv.route "migrations"

/-- The tenant that a request runs for, empty for none, or the status that denies it. -/
def Server.tenantOf (r : Request) (key : KeyRecord) : Except Nat String :=
  if key.tenantId ≠ "" then
    if r.selector ≠ "" ∧ r.selector ≠ key.tenantId then .error 403 else .ok key.tenantId
  else if r.selector = "" ∧ ¬ (srv.isKeys r || srv.isTenants r || srv.isStatus r) then .error 400
  else .ok r.selector

/-- The checks of the middleware on a request with a token; the login route is exempt. -/
def Server.authenticate (now : Int) (w : World) (r : Request) : Except Nat (String × KeyRecord) :=
  match r.bearer.bind fun raw => w.store.lookup (srv.hashKey raw) with
  | none => .error 401
  | some key =>
    if key.revoked ∨ (key.expiresAt.any fun at' => decide (at' < now)) then .error 401
    else match srv.tenantOf r key with
      | .error status => .error status
      | .ok tid =>
        if ¬ key.canManageKeys ∧ (srv.isKeys r ∨ srv.isStatus r) then .error 403
        else if srv.isTenants r ∧ (¬ key.canManageKeys ∨ key.tenantId ≠ "") then .error 403
        else if ¬ r.compatible then .error 426
        else if tid ≠ "" ∧ ¬ valid tid then .error 400
        else .ok (tid, key)

/-- `Issue`: the row is inserted unless there is one with its hash. -/
def Server.issue (w : World) (r : Request) (id fresh : String) : World :=
  if r.label = "" ∨ r.tenantId ≠ "" ∧ ¬ (valid r.tenantId ∧ srv.known r.tenantId) then w
  else if (w.store.lookup (srv.hashKey fresh)).isSome then w
  else
    { store := (srv.hashKey fresh, ⟨id, r.tenantId, r.canManageKeys, false, none⟩) :: w.store
      held := fresh :: w.held }

def revoke (w : World) (id : String) : World :=
  { w with store := Assoc.mapValues w.store fun _ key =>
      if key.id = id then { key with revoked := true } else key }

/-- A request at a time, with the id and the key that are drawn if one is to be issued. -/
structure Call where
  request : Request
  now : Int
  id : String
  fresh : String

/-- The handlers that write keys, for a request with `key`; the others leave them as they are. -/
def Server.serve (w : World) (c : Call) (key : KeyRecord) : World :=
  if srv.isIssue c.request then srv.issue w c.request c.id c.fresh
  else if srv.isLogout c.request then revoke w key.id
  else match (routePath c.request.path).getLast? with
    | some id =>
      if c.request.method = .delete ∧ routePath c.request.path = srv.route "keys" ++ [id] then
        revoke w id
      else w
    | none => w

def Server.step (w : World) (c : Call) : Option World :=
  match srv.authenticate c.now w c.request with
  | .ok (_, key) => some (srv.serve w c key)
  | .error _ => some w

/-- A request that passes runs for the tenant and is not one for the tenants. -/
def Server.confined (t : String) (w : World) (c : Call) : Bool :=
  match srv.authenticate c.now w c.request with
  | .ok (tid, _) => tid = t && !srv.isTenants c.request
  | .error _ => true

/-- The client presents keys that it holds, and asks for keys of its tenant alone unless its
keys manage none. -/
def Server.modest (t : String) (manages : Bool) (w : World) (c : Call) : Bool :=
  (c.request.bearer.all fun raw => raw ∈ w.held) &&
    (!manages || !srv.isIssue c.request || c.request.tenantId = t)

def KeyRecord.boundTo (t : String) (manages : Bool) (key : KeyRecord) : Bool :=
  key.tenantId = t && (manages || !key.canManageKeys)

/-- The keys in the client's hands are bound to the tenant. -/
def Server.bound (t : String) (manages : Bool) (w : World) : Bool :=
  w.held.all fun raw => (w.store.lookup (srv.hashKey raw)).any (KeyRecord.boundTo t manages)

end

variable {srv : Server} {t : String} {manages : Bool} {w v : World} {c : Call}

theorem authenticate_eq_ok {tid : String} {key : KeyRecord}
    (h : srv.authenticate c.now w c.request = .ok (tid, key)) :
    ∃ raw, c.request.bearer = some raw ∧ w.store.lookup (srv.hashKey raw) = some key ∧
      srv.tenantOf c.request key = .ok tid ∧
      (srv.isKeys c.request → key.canManageKeys) ∧
      (key.tenantId ≠ "" → srv.isTenants c.request = false) := by
  revert h
  fun_cases srv.authenticate c.now w c.request <;> rintro ⟨⟩
  rename_i hfound _ hmanage htenants htid
  obtain ⟨raw, hraw, hlookup⟩ := bind_eq_some_iff.mp hfound
  refine ⟨raw, hraw, hlookup, htid, fun hkeys => ?_, fun hbound => ?_⟩
  · by_contra hnot
    exact hmanage ⟨hnot, .inl hkeys⟩
  · by_contra hroute
    exact htenants ⟨by simpa using hroute, .inr hbound⟩

theorem isKeys_of_isIssue (h : srv.isIssue c.request) : srv.isKeys c.request := by
  simp only [Server.isIssue, Bool.and_eq_true, decide_eq_true_eq] at h
  simp [Server.isKeys, isUnderRoute, h.2]

theorem bound_iff : srv.bound t manages w ↔
    ∀ raw ∈ w.held, ∃ key, w.store.lookup (srv.hashKey raw) = some key ∧ key.boundTo t manages := by
  simp only [Server.bound, List.all_eq_true, Option.any_eq_true]

section

variable (h : srv.bound t manages w)
include h

theorem bound_issue {r : Request} {id fresh : String}
    (hkey : KeyRecord.boundTo t manages ⟨id, r.tenantId, r.canManageKeys, false, none⟩) :
    srv.bound t manages (srv.issue w r id fresh) := by
  unfold Server.issue
  split_ifs with _ hnew
  · exact h
  · exact h
  · rw [bound_iff] at h ⊢
    intro raw hraw
    by_cases hsame : srv.hashKey raw = srv.hashKey fresh
    · refine ⟨_, ?_, hkey⟩
      rw [hsame, lookup_cons_self]
    · obtain ⟨key, hlookup, hbound⟩ := h raw ((mem_cons.mp hraw).resolve_left fun heq =>
        hsame (congrArg _ heq))
      refine ⟨key, ?_, hbound⟩
      have hbeq : (srv.hashKey raw == srv.hashKey fresh) = false := by simpa using hsame
      rw [lookup_cons, hbeq]
      exact hlookup

theorem bound_revoke (id : String) : srv.bound t manages (revoke w id) := by
  rw [bound_iff] at h ⊢
  intro raw hraw
  obtain ⟨key, hkey, hbound⟩ := h raw hraw
  refine ⟨_, by rw [revoke, Assoc.lookup_mapValues, hkey, map_some], ?_⟩
  split_ifs
  exacts [hbound, hbound]

theorem passed_bound {tid : String} {key : KeyRecord}
    (hc : srv.modest t manages w c) (hok : srv.authenticate c.now w c.request = .ok (tid, key)) :
    key.tenantId = t ∧ (key.canManageKeys → manages) := by
  obtain ⟨raw, hraw, hlookup, -, -, -⟩ := authenticate_eq_ok hok
  have hheld : raw ∈ w.held := by
    simp only [Server.modest, hraw, all_some, Bool.and_eq_true, decide_eq_true_eq] at hc
    exact hc.1
  obtain ⟨found, hfound, hbound⟩ := bound_iff.mp h raw hheld
  cases hlookup.symm.trans hfound
  simp only [KeyRecord.boundTo, Bool.and_eq_true, decide_eq_true_eq, Bool.or_eq_true,
    Bool.not_eq_true'] at hbound
  exact ⟨hbound.1, fun hmanage => hbound.2.resolve_right (by simp [hmanage])⟩

theorem bound_step (hc : srv.modest t manages w c)
    (hstep : srv.step w c = some v) : srv.bound t manages v := by
  unfold Server.step at hstep
  split at hstep
  · rename_i ok hok
    cases hstep
    unfold Server.serve
    split_ifs with hpost hlogout
    · obtain ⟨raw, -, -, -, hkeys, -⟩ := authenticate_eq_ok hok
      have hmanages := (passed_bound h hc hok).2 (hkeys (isKeys_of_isIssue hpost))
      refine bound_issue h ?_
      simpa [Server.modest, KeyRecord.boundTo, hmanages, hpost] using (Bool.and_eq_true_iff.mp hc).2
    · exact bound_revoke h _
    · split
      · split_ifs
        exacts [bound_revoke h _, h]
      · exact h
  · cases hstep
    exact h

end

theorem confined_of_bound (ht : t ≠ "") (h : srv.bound t manages w)
    (hc : srv.modest t manages w c) : srv.confined t w c := by
  unfold Server.confined
  split
  · rename_i tid key hok
    obtain ⟨raw, -, -, htid, -, htenants⟩ := authenticate_eq_ok hok
    obtain ⟨rfl, -⟩ := passed_bound h hc hok
    rw [Server.tenantOf, if_pos ht] at htid
    split_ifs at htid
    cases htid
    simp [htenants ht]
  · rfl

/-- A client whose key manages no keys, or that asks for keys of its tenant only, is confined to
the tenant. -/
theorem along_confined (ht : t ≠ "") (calls : List Call) (h : srv.bound t manages w)
    (hcalls : Along srv.step (fun w c => srv.modest t manages w c) w calls) :
    Along srv.step (fun w c => srv.confined t w c) w calls := by
  induction calls generalizing w with
  | nil => trivial
  | cons c calls ih =>
    exact ⟨confined_of_bound ht h hcalls.1,
      fun v hv => ih (bound_step h hcalls.1 hv) (hcalls.2 v hv)⟩

def admin : Server :=
  ⟨"/admin", id, fun _ => true⟩

def acmeManager : World :=
  ⟨[("k1", ⟨"1", "acme", true, false, none⟩)], ["k1"]⟩

def mint (tenantId : String) : Call :=
  ⟨{ method := .post, path := "/admin/keys", bearer := some "k1", label := "l",
     tenantId := tenantId }, 0, "2", "k2"⟩

def readAs (key selector : String) : Call :=
  ⟨{ method := .get, path := "/admin/query", bearer := some key, selector := selector }, 0, "", ""⟩

theorem acmeManager_confined : Along admin.step (fun w c => admin.confined "acme" w c) acmeManager
      [mint "acme", readAs "k2" ""] :=
  along_confined (by decide) _ (by decide : admin.bound "acme" true acmeManager) (by decide +kernel)

/-- A key that is bound to a tenant and may manage keys mints one for every tenant. -/
theorem minted_key_escapes : ¬ Along admin.step (fun w c => admin.confined "acme" w c) acmeManager
      [mint "", readAs "k2" "globex"] := by
  decide +kernel

end Fabriq.Admin.KeyAuthority
