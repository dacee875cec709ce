/-
Run-scoped names for the roles a plan names: `RoleMapping` of `pbps-model`, what it makes of a schema, of an identity file
and of a plan, and what a plan would be with every role it names under the run's name.
-/
import Pbps.Diff.Columns
import Pbps.Lib.Map

namespace Pbps

open Std (ExtTreeMap ExtTreeSet)
open Diff (Change)
open List Option Std.ExtTreeMap

/-! ## Roles under other names -/

section Rename

variable (f : RoleName → RoleName)

def RowPolicy.mapRoles (policy : RowPolicy) : RowPolicy :=
  match policy.to_ with
  | .roles names => { policy with to_ := .roles (.ofList (names.toList.map f)) }
  | .public_ => policy

def Table.mapRoles (t : Table) : Table := { t with rowPolicies := t.rowPolicies.map fun _ => RowPolicy.mapRoles f }

def Schema.mapRoles (schema : Schema) : Schema :=
  { schema with
    roles := .ofList (schema.roles.toList.map fun e => (f e.1, e.2))
    tables := schema.tables.map fun _ => Table.mapRoles f }

def IdsFile.mapRoles (ids : IdsFile) : IdsFile := { ids with roles := ids.roles.map fun _ => f }

namespace Diff

def Side.mapRoles (side : Side) : Side := ⟨side.schema.mapRoles f, side.ids.mapRoles f⟩

theorem Side.schema_mapRoles (side : Side) : (side.mapRoles f).schema = side.schema.mapRoles f := rfl

/-- A change with every role it names under its new name, those in the table it carries too. -/
def Change.mapRoles : Change → Change
  | .createRole uid name => .createRole uid (f name)
  | .dropRole uid name members => .dropRole uid (f name) (members.map f)
  | .renameRole uid from_ to_ => .renameRole uid (f from_) (f to_)
  | .grant role target permissions => .grant (f role) target permissions
  | .revoke role target permissions => .revoke (f role) target permissions
  | .createPolicy table name policy origin => .createPolicy table name (policy.mapRoles f) origin
  | .dropPolicy table name policy => .dropPolicy table name (policy.mapRoles f)
  | .createTable uid name table besideDefault movesAtMost =>
    .createTable uid name (table.mapRoles f) besideDefault movesAtMost
  | .detachPartition uid table parent names shape => .detachPartition uid table parent names (shape.mapRoles f)
  | .attachPartition uid table parent bound key shape => .attachPartition uid table parent bound key (shape.mapRoles f)
  | change => change

end Diff

end Rename

/-! ## The mapping of a run -/

/-- Each role a plan names, and the role the run creates for it. -/
structure RoleMapping where
  toRun : ExtTreeMap RoleName RoleName := ∅
  /-- The mapped names in the order they were numbered. -/
  created : List RoleName := []

namespace RoleMapping

/-- The name numbered `n`. -/
def runName (label token : String) (n : Nat) : RoleName := label ++ "_" ++ toString n ++ "_" ++ token

def numbered (names : List RoleName) (keeps : RoleName → Bool) : List (RoleName × Nat) :=
  ((ExtTreeSet.ofList names).toList.filter fun name => !keeps name).zipIdx

def generate (names : List RoleName) (label token : String) (keeps : RoleName → Bool) : RoleMapping where
  toRun := .ofList ((numbered names keeps).map fun e => (e.1, runName label token e.2))
  created := (numbered names keeps).map fun e => runName label token e.2

variable (mapping : RoleMapping)

/-- The run's name for `role`, or `role` itself where it is kept or unknown. -/
def name (role : RoleName) : RoleName := mapping.toRun.getD role role

def policy (policy : RowPolicy) : RowPolicy := policy.mapRoles mapping.name

/-- `schema` with every role it names under the run's name. -/
def schema (schema : Schema) : Schema := schema.mapRoles mapping.name

/-- `ids` with the same names. -/
def ids (ids : IdsFile) : IdsFile := ids.mapRoles mapping.name

def change : Change → Change
  | .createRole uid name => .createRole uid (mapping.name name)
  | .dropRole uid name members => .dropRole uid (mapping.name name) (members.map mapping.name)
  | .grant role target permissions => .grant (mapping.name role) target permissions
  | .revoke role target permissions => .revoke (mapping.name role) target permissions
  | .renameRole uid from_ to_ => .renameRole uid (mapping.name from_) (mapping.name to_)
  | .createPolicy table name policy origin => .createPolicy table name (mapping.policy policy) origin
  | .dropPolicy table name policy => .dropPolicy table name (mapping.policy policy)
  | change => change

def changes (plan : List Change) : List Change := plan.map mapping.change

end RoleMapping

/-! ## The roles of a side -/

def RowPolicy.roles (policy : RowPolicy) : List RoleName :=
  match policy.to_ with
  | .roles names => names.toList
  | .public_ => []

def Table.policyRoles (t : Table) : List RoleName := t.rowPolicies.toList.flatMap fun e => e.2.roles

/-- The roles a schema declares and those its policies apply to: `named_roles`. -/
def Schema.namedRoles (schema : Schema) : List RoleName :=
  schema.roles.keys ++ schema.tables.toList.flatMap fun e => e.2.policyRoles

def Diff.Side.roles (side : Diff.Side) : List RoleName := side.schema.namedRoles ++ side.ids.roles.toList.map Prod.snd

namespace RoleMapping

/-! ## Names are different -/

variable {label token : String} {names : List RoleName} {keeps : RoleName → Bool}

theorem runName_inj {n m : Nat} (h : runName label token n = runName label token m) : n = m := by
  have hdigits : Nat.toDigits 10 n = Nat.toDigits 10 m := by
    have hlist := congrArg String.toList h
    simpa [runName] using hlist
  rw [← Nat.ofDigitChars_ten_toDigits (n := n), hdigits, Nat.ofDigitChars_ten_toDigits]

theorem toRun_eq_some {role role' : RoleName} : (generate names label token keeps).toRun[role]? = some role' ↔
      ∃ n, (role, n) ∈ numbered names keeps ∧ role' = runName label token n := by
  have hkeys : (((numbered names keeps).map fun e => (e.1, runName label token e.2)).map Prod.fst).Nodup := by
    rw [List.map_map, show Prod.fst ∘ (fun e : RoleName × Nat => (e.1, runName label token e.2)) = Prod.fst from rfl, numbered,
      zipIdx_map_fst]
    exact ExtTreeSet.nodup_toList.filter _
  rw [generate, getElem?_ofList_eq_some hkeys, List.mem_map]
  constructor
  · rintro ⟨⟨r, n⟩, hmem, heq⟩
    cases heq
    exact ⟨n, hmem, rfl⟩
  · rintro ⟨n, hmem, rfl⟩
    exact ⟨(role, n), hmem, rfl⟩

theorem mem_created {role role' : RoleName} (h : (generate names label token keeps).toRun[role]? = some role') :
    role' ∈ (generate names label token keeps).created := by
  obtain ⟨n, hmem, hrole⟩ := toRun_eq_some.1 h
  rw [generate]
  exact List.mem_map.2 ⟨(role, n), hmem, hrole.symm⟩

/-- Two roles go by one name in a run only if they are one, where none that keeps its name has a name the run makes. -/
theorem name_inj {roles : List RoleName} (happart : ∀ role ∈ roles, (generate names label token keeps).toRun[role]? = none →
      role ∉ (generate names label token keeps).created) :
    ∀ a ∈ roles, ∀ b ∈ roles, (generate names label token keeps).name a = (generate names label token keeps).name b → a = b := by
  intro a ha b hb h
  rw [name, name, getD_eq_getD_getElem?, getD_eq_getD_getElem?] at h
  cases hfirst : (generate names label token keeps).toRun[a]? with
  | none =>
    cases hsecond : (generate names label token keeps).toRun[b]? with
    | none =>
      rw [hfirst, hsecond] at h
      exact h
    | some b' =>
      rw [hfirst, hsecond, getD_none, getD_some] at h
      exact absurd (h ▸ mem_created hsecond) (happart a ha hfirst)
  | some a' =>
    cases hsecond : (generate names label token keeps).toRun[b]? with
    | none =>
      rw [hfirst, hsecond, getD_none, getD_some] at h
      exact absurd (h ▸ mem_created hfirst) (happart b hb hsecond)
    | some b' =>
      rw [hfirst, hsecond] at h
      obtain ⟨n, hn, rfl⟩ := toRun_eq_some.1 hfirst
      obtain ⟨m, hm, rfl⟩ := toRun_eq_some.1 hsecond
      obtain rfl := runName_inj h
      exact congrArg Prod.fst (inj_on_of_nodup_map (nodup_zipIdx_map_snd _) hn hm rfl)

end RoleMapping

end Pbps
