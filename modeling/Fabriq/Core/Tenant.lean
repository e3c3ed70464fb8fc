import Mathlib.Data.List.Basic

namespace Fabriq.Core.Tenant

def idChar (c : Char) : Bool :=
  c.isAlphanum || c == '_' || c == '-'

/-- `Valid`: one to 64 characters of the pattern. -/
def valid (id : String) : Bool :=
  id.toList.all idChar && decide (1 ≤ id.length) && decide (id.length ≤ 64)

/-- A tenant as `WithTenant` stamps it on a context. -/
structure TenantId where
  id : String
  wellFormed : valid id = true

theorem TenantId.ext_id {t t' : TenantId} (h : t.id = t'.id) : t = t' := by
  cases t
  cases t'
  cases h
  rfl

theorem notMem_of_valid {id : String} {c : Char} (h : valid id) (hc : idChar c = false) :
    c ∉ id.toList := by
  intro hmem
  rw [valid, Bool.and_eq_true, Bool.and_eq_true, List.all_eq_true] at h
  rw [h.1.1 c hmem] at hc
  exact Bool.noConfusion hc

theorem valid_acme : valid "acme" = true := by
  decide

theorem valid_acmeEu : valid "acme_eu" = true := by
  decide

end Fabriq.Core.Tenant
