import Backbone.Lib.Text
import Backbone.Tenant.Registry

/-!
# The databases of the tenants

A tenant is a database, and its name is interpolated into `CREATE DATABASE`: `database_name` builds it
from an id of a small alphabet only, in which a dash becomes an underscore.

Reference: `backbone-tenant/src/provision.rs`.
-/

namespace Backbone.Tenant

open Text

/-- `NAMEDATALEN - 1`. -/
def maxIdentLen : ℕ := 63

/-- `ProvisionError::UnsafeTenantId`, and `sqlx::Error` as its text. -/
inductive ProvisionError where
  | unsafeTenantId (id : String) (reason : String)
  | db (message : String)
deriving DecidableEq, Repr

structure TenantProvisioner where
  adminDsn : String
  namePrefix : String

namespace TenantProvisioner

/-- `TenantProvisioner::new`. -/
def new (adminDsn : String) : TenantProvisioner := ⟨adminDsn, "tenant_"⟩

def withPrefix (p : TenantProvisioner) (namePrefix : String) : TenantProvisioner :=
  { p with namePrefix := namePrefix }

end TenantProvisioner

/-- The characters of an id. -/
def isIdChar (c : Char) : Bool := c.isLower || c.isDigit || c == '-' || c == '_'

/-- `replace('-', "_")`. -/
def underscored (id : String) : String :=
  String.ofList (id.toList.map fun c => if c = '-' then '_' else c)

def TenantProvisioner.databaseName (p : TenantProvisioner) (tenant : TenantId) :
    Except ProvisionError String :=
  let reject (reason : String) : Except ProvisionError String :=
    .error (.unsafeTenantId tenant reason)
  match tenant.toList with
  | [] => reject "empty"
  | first :: rest =>
    if !(first :: rest).all isIdChar then
      reject "only lowercase letters, digits, '-' and '_' are allowed"
    else if !(first.isLower || first == '_') then reject "must start with a letter or underscore"
    else
      let name := p.namePrefix ++ underscored tenant
      if maxIdentLen < name.utf8ByteSize then
        reject "resulting database name exceeds 63 characters"
      else .ok name

/-- An id of the alphabet that starts with a letter or an underscore. -/
def IsId (tenant : TenantId) : Prop :=
  (∃ first rest, tenant.toList = first :: rest ∧ (first.isLower || first == '_') = true) ∧
    tenant.toList.all isIdChar = true

/-- An id is accepted exactly when it is well formed and the name fits. -/
theorem databaseName_eq_ok_iff (p : TenantProvisioner) (tenant : TenantId) (name : String) :
    p.databaseName tenant = .ok name ↔
      IsId tenant ∧ (p.namePrefix ++ underscored tenant).utf8ByteSize ≤ maxIdentLen ∧
        p.namePrefix ++ underscored tenant = name := by
  unfold TenantProvisioner.databaseName IsId
  cases tenant.toList with
  | nil => simp
  | cons first rest =>
    dsimp only
    cases hchars : (first :: rest).all isIdChar with
    | false =>
      rw [if_pos (by rfl)]
      simp
    | true =>
      rw [if_neg (by decide)]
      cases hfirst : first.isLower || first == '_' with
      | false =>
        rw [if_pos (by rfl)]
        refine iff_of_false (by simp) ?_
        rintro ⟨⟨⟨_, _, heq, hlower⟩, -⟩, -⟩
        cases heq
        rw [hfirst] at hlower
        cases hlower
      | true =>
        rw [if_neg (by decide)]
        by_cases hlen : maxIdentLen < (p.namePrefix ++ underscored tenant).utf8ByteSize
        · rw [if_pos hlen]
          exact iff_of_false (by simp) fun h => absurd h.2.1 (not_le.mpr hlen)
        · rw [if_neg hlen, Except.ok.injEq]
          exact ⟨fun h => ⟨⟨⟨first, rest, rfl, hfirst⟩, rfl⟩, not_lt.mp hlen, h⟩, fun h => h.2.2⟩

end Backbone.Tenant
