import ScpCore.RoleCeiling

/-! The role state of a context and the operations that write it. The ceiling, the role
definitions and each member's grants are three copies of authority: a definition is cut
from the ceiling the context was created with, a grant is a copy of a definition, and
changing the ceiling writes neither. -/

namespace ScpCore.Roles

/-- The resource (`with`) and action of one attestation. -/
structure UcanAttestation where
  resource : String
  can : String
  deriving DecidableEq

structure UcanToken where
  iss : String
  aud : String
  att : List UcanAttestation
  nnc : String
  deriving DecidableEq

structure RoleAssignment where
  memberDid : String
  roleName : String
  tokens : List UcanToken
  deriving DecidableEq

/-- The maps by key, absent where `none`. -/
structure ContextRoleState where
  contextId : String
  creatorDid : String
  ceiling : CapabilityCeiling
  roleDefinitions : String → Option RoleDefinition
  assignments : String → Option RoleAssignment
  members : String → Bool
  memberCapabilities : String → Option (List Capability)
  suspendedCapabilities : String → Option (List Capability)

/-- One token for each capability; `nonce` is what the clock gives for it. -/
def mintRoleTokens (contextId creatorDid memberDid : String) (role : RoleDefinition)
    (nonce : Capability → String) : List UcanToken :=
  role.capabilities.map (fun capability =>
    let (resource, action) := capability.ucanResourceAction
    ⟨creatorDid, memberDid, [⟨"scp:ctx:" ++ contextId ++ "/" ++ resource ++ ":" ++ action, action⟩],
      nonce capability⟩)

namespace ContextRoleState

/-- Enters each definition under its name, later ones over earlier ones. -/
def define (definitions : String → Option RoleDefinition) (roles : List RoleDefinition) :
    String → Option RoleDefinition :=
  roles.foldl (fun defs role => Function.update defs role.name (some role)) definitions

def new (contextId creatorDid : String) (ceiling : CapabilityCeiling)
    (customRoles : List RoleDefinition) (nonce : Capability → String) :
    Except RoleError ContextRoleState := do
  ceiling.validateEntries.mapError .invalidCeilingCategory
  checkEach (fun role => do
    validateRoleName role.name
    validateRoleDefinition role ceiling) customRoles
  let roleDefinitions := define (fun _ => none)
    (builtinRoles ceiling ++ builtinBroadcastRoles ceiling ++ customRoles)
  -- The creator is assigned the admin role.
  let adminRole := (roleDefinitions "admin").getD (builtinAdmin ceiling)
  let tokens := mintRoleTokens contextId creatorDid creatorDid adminRole nonce
  pure {
    contextId, creatorDid, ceiling, roleDefinitions
    assignments := Function.update (fun _ => none) creatorDid
      (some ⟨creatorDid, "admin", tokens⟩)
    members := Function.update (fun _ => false) creatorDid true
    memberCapabilities := Function.update (fun _ => none) creatorDid (some adminRole.capabilities)
    suspendedCapabilities := fun _ => none }

variable (s : ContextRoleState)

/-- Granted to the member and not suspended. -/
def memberHasCapability (memberDid : String) (capability : Capability) : Bool :=
  if (s.suspendedCapabilities memberDid).any (capability ∈ ·) then false
  else (s.memberCapabilities memberDid).any (capability ∈ ·)

def suspendCapabilities (memberDid : String) (capabilities : List Capability) :
    ContextRoleState :=
  { s with
    suspendedCapabilities := Function.update s.suspendedCapabilities memberDid
      (some ((s.suspendedCapabilities memberDid).getD [] ++ capabilities)) }

/-- Keeps of a member's suspensions those that pass, and no empty entry. -/
def keepSuspensions (memberDid : String) (keep : Capability → Bool) : ContextRoleState :=
  match s.suspendedCapabilities memberDid with
  | none => s
  | some suspended =>
    let left := suspended.filter keep
    { s with
      suspendedCapabilities := Function.update s.suspendedCapabilities memberDid
        (if left.isEmpty then none else some left) }

def restoreCapabilities (memberDid : String) (capabilities : List Capability) :
    ContextRoleState :=
  s.keepSuspensions memberDid (· ∉ capabilities)

def suspendAll (memberDid : String) : ContextRoleState :=
  match s.memberCapabilities memberDid with
  | none => s
  | some capabilities =>
    { s with
      suspendedCapabilities :=
        Function.update s.suspendedCapabilities memberDid (some capabilities) }

def pruneSuspensionsToRoleGrants (memberDid : String) (newRoleCapabilities : List Capability) :
    ContextRoleState :=
  s.keepSuspensions memberDid (· ∈ newRoleCapabilities)

/-- Replaces the whole ceiling, and nothing else, where every entry is well formed. -/
def setCeiling (ceiling : CapabilityCeiling) : Except CeilingEntryError ContextRoleState := do
  ceiling.validateEntries
  pure { s with ceiling }

/-- The role is looked up, checked against the ceiling and copied to the member. -/
def systemAssignRole (memberDid roleName : String) (nonce : Capability → String) :
    Except RoleError (List UcanToken × ContextRoleState) := do
  require (s.members memberDid) (.memberNotInContext memberDid)
  let role ← okOr (s.roleDefinitions roleName) (.roleNotFound roleName)
  validateRoleDefinition role s.ceiling
  let tokens := mintRoleTokens s.contextId s.creatorDid memberDid role nonce
  let assigned := { s with
    assignments := Function.update s.assignments memberDid (some ⟨memberDid, roleName, tokens⟩)
    memberCapabilities :=
      Function.update s.memberCapabilities memberDid (some role.capabilities) }
  pure (tokens, assigned.pruneSuspensionsToRoleGrants memberDid role.capabilities)

/-- The same steps as `systemAssignRole`, for an assigner who holds `RoleAssign`. -/
def assignRole (memberDid roleName assignerDid : String) (nonce : Capability → String) :
    Except RoleError (List UcanToken × ContextRoleState) := do
  require (s.memberHasCapability assignerDid .roleAssign) (.assignerNotAuthorized assignerDid)
  s.systemAssignRole memberDid roleName nonce

def removeMember (memberDid : String) : Bool × ContextRoleState :=
  (s.members memberDid,
    { s with
      members := Function.update s.members memberDid false
      assignments := Function.update s.assignments memberDid none
      memberCapabilities := Function.update s.memberCapabilities memberDid none
      suspendedCapabilities := Function.update s.suspendedCapabilities memberDid none })

/-- The membership path's `members_mut().insert`; a role is assigned apart from it. -/
def insertMember (memberDid : String) : ContextRoleState :=
  { s with members := Function.update s.members memberDid true }

end ContextRoleState

/-- The operations that write a context's role state. -/
inductive RoleOp
  | assignRole (memberDid roleName assignerDid : String) (nonce : Capability → String)
  | systemAssignRole (memberDid roleName : String) (nonce : Capability → String)
  | setCeiling (capabilities : List Capability)
  | suspendCapabilities (memberDid : String) (capabilities : List Capability)
  | restoreCapabilities (memberDid : String) (capabilities : List Capability)
  | suspendAll (memberDid : String)
  | removeMember (memberDid : String)
  | insertMember (memberDid : String)

namespace ContextRoleState
variable (s : ContextRoleState)

/-- The state after an operation; one that fails writes nothing. -/
def step : RoleOp → ContextRoleState
  | .assignRole memberDid roleName assignerDid nonce =>
    match s.assignRole memberDid roleName assignerDid nonce with
    | .ok (_, next) => next
    | .error _ => s
  | .systemAssignRole memberDid roleName nonce =>
    match s.systemAssignRole memberDid roleName nonce with
    | .ok (_, next) => next
    | .error _ => s
  | .setCeiling capabilities =>
    match s.setCeiling ⟨capabilities⟩ with
    | .ok next => next
    | .error _ => s
  | .suspendCapabilities memberDid capabilities => s.suspendCapabilities memberDid capabilities
  | .restoreCapabilities memberDid capabilities => s.restoreCapabilities memberDid capabilities
  | .suspendAll memberDid => s.suspendAll memberDid
  | .removeMember memberDid => (s.removeMember memberDid).2
  | .insertMember memberDid => s.insertMember memberDid

def run (ops : List RoleOp) : ContextRoleState := ops.foldl step s

theorem run_append_singleton (ops : List RoleOp) (op : RoleOp) :
    s.run (ops ++ [op]) = (s.run ops).step op := by
  rw [run, List.foldl_append]
  rfl

/-- No member holds a capability outside the ceiling. -/
def Within : Prop :=
  ∀ memberDid capability, s.memberHasCapability memberDid capability = true →
    s.ceiling.contains capability = true

/-- No built-in role is refused to a member for being outside the ceiling. -/
def BuiltinsAssignable : Prop :=
  ∀ name ∈ reservedRoleNames, ∀ memberDid nonce role capability,
    s.systemAssignRole memberDid name nonce ≠ .error (.capabilityOutsideCeiling role capability)

/-- All along the run no grant is outside the ceiling, and after every ceiling that was set
the built-in roles can be assigned. -/
structure CeilingHolds (ops : List RoleOp) : Prop where
  within : ∀ done rest, ops = done ++ rest → (s.run done).Within
  assignable : ∀ done capabilities rest, ops = done ++ .setCeiling capabilities :: rest →
    ((s.run done).setCeiling ⟨capabilities⟩).isOk = true →
    (s.run (done ++ [.setCeiling capabilities])).BuiltinsAssignable

/-- A ceiling that is set while someone is a member covers the ceiling the context was
created with. -/
def NeverCutBelow (created : CapabilityCeiling) (ops : List RoleOp) : Prop :=
  ∀ done capabilities rest, ops = done ++ .setCeiling capabilities :: rest →
    (CapabilityCeiling.mk capabilities).validateEntries = .ok () →
    (∃ memberDid, (s.run done).members memberDid = true) →
    (CapabilityCeiling.mk capabilities).containsAll created.capabilities = true

/-- What holds from the creation on: the definitions stay within the ceiling of creation,
and only members hold grants. -/
structure Rooted (created : CapabilityCeiling) : Prop where
  definitions : ∀ name role, s.roleDefinitions name = some role →
    created.containsAll role.capabilities = true
  admin : s.roleDefinitions "admin" = some (builtinAdmin created)
  granted : ∀ memberDid capabilities, s.memberCapabilities memberDid = some capabilities →
    s.members memberDid = true ∧ created.containsAll capabilities = true

/-- Every grant is within the ceiling in force, suspended or not. -/
def GrantsWithin : Prop :=
  ∀ memberDid capabilities, s.memberCapabilities memberDid = some capabilities →
    s.ceiling.containsAll capabilities = true

variable {s}

theorem GrantsWithin.within (h : s.GrantsWithin) : s.Within := by
  intro memberDid capability hhas
  unfold memberHasCapability at hhas
  split_ifs at hhas
  obtain ⟨capabilities, hgrant, hmem⟩ := (Option.any_eq_true _ _).mp hhas
  rw [decide_eq_true_eq] at hmem
  have hall := h memberDid capabilities hgrant
  rw [CapabilityCeiling.containsAll, List.all_eq_true] at hall
  exact hall capability hmem

/-- The writes of one step to the ceiling, the members and the grants. -/
inductive Writes (s : ContextRoleState) (op : RoleOp) (t : ContextRoleState) : Prop
  | nothing (ceiling : t.ceiling = s.ceiling) (members : t.members = s.members)
      (grants : t.memberCapabilities = s.memberCapabilities)
  | grant (memberDid name : String) (role : RoleDefinition) (member : s.members memberDid = true)
      (defined : s.roleDefinitions name = some role)
      (fits : s.ceiling.containsAll role.capabilities = true)
      (ceiling : t.ceiling = s.ceiling) (members : t.members = s.members)
      (grants : t.memberCapabilities =
        Function.update s.memberCapabilities memberDid (some role.capabilities))
  | ceiling (capabilities : List Capability) (set : op = .setCeiling capabilities)
      (valid : (CapabilityCeiling.mk capabilities).validateEntries = .ok ())
      (ceiling : t.ceiling = ⟨capabilities⟩) (members : t.members = s.members)
      (grants : t.memberCapabilities = s.memberCapabilities)
  | removal (memberDid : String) (ceiling : t.ceiling = s.ceiling)
      (members : t.members = Function.update s.members memberDid false)
      (grants : t.memberCapabilities = Function.update s.memberCapabilities memberDid none)
  | arrival (memberDid : String) (ceiling : t.ceiling = s.ceiling)
      (members : t.members = Function.update s.members memberDid true)
      (grants : t.memberCapabilities = s.memberCapabilities)

section Step
variable {memberDid roleName : String} {nonce : Capability → String}

theorem keepSuspensions_frame (s : ContextRoleState) (memberDid : String)
    (keep : Capability → Bool) : (s.keepSuspensions memberDid keep).ceiling = s.ceiling ∧
      (s.keepSuspensions memberDid keep).members = s.members ∧
      (s.keepSuspensions memberDid keep).memberCapabilities = s.memberCapabilities ∧
      (s.keepSuspensions memberDid keep).roleDefinitions = s.roleDefinitions := by
  unfold keepSuspensions
  cases s.suspendedCapabilities memberDid <;> exact ⟨rfl, rfl, rfl, rfl⟩

theorem suspendAll_frame (s : ContextRoleState) (memberDid : String) :
    (s.suspendAll memberDid).ceiling = s.ceiling ∧ (s.suspendAll memberDid).members = s.members ∧
      (s.suspendAll memberDid).memberCapabilities = s.memberCapabilities ∧
      (s.suspendAll memberDid).roleDefinitions = s.roleDefinitions := by
  unfold suspendAll
  cases s.memberCapabilities memberDid <;> exact ⟨rfl, rfl, rfl, rfl⟩

/-- A role that is assigned was defined, fits the ceiling and is copied to a member. -/
theorem systemAssignRole_ok {tokens : List UcanToken} {t : ContextRoleState} (op : RoleOp)
    (h : s.systemAssignRole memberDid roleName nonce = .ok (tokens, t)) :
    Writes s op t ∧ t.roleDefinitions = s.roleDefinitions := by
  simp only [systemAssignRole, bind_ok_iff, exists_unit_iff, require_ok_iff, okOr_ok_iff,
    validateRoleDefinition_ok_iff, pure_ok_iff, Prod.mk.injEq] at h
  obtain ⟨hmember, role, hrole, hfits, -, rfl⟩ := h
  obtain ⟨hceiling, hmembers, hgrants, hdefs⟩ := keepSuspensions_frame { s with
    assignments := Function.update s.assignments memberDid (some ⟨memberDid, roleName,
      mintRoleTokens s.contextId s.creatorDid memberDid role nonce⟩)
    memberCapabilities := Function.update s.memberCapabilities memberDid
      (some role.capabilities) } memberDid (· ∈ role.capabilities)
  exact ⟨.grant memberDid roleName role hmember hrole hfits hceiling hmembers hgrants, hdefs⟩

/-- Every step writes one of these, and none writes a definition. -/
theorem step_writes (s : ContextRoleState) (op : RoleOp) :
    Writes s op (s.step op) ∧ (s.step op).roleDefinitions = s.roleDefinitions := by
  have hsame : Writes s op s ∧ s.roleDefinitions = s.roleDefinitions := ⟨.nothing rfl rfl rfl, rfl⟩
  cases op with
  | assignRole memberDid roleName assignerDid nonce =>
    simp only [step]
    cases h : s.assignRole memberDid roleName assignerDid nonce with
    | error e => exact hsame
    | ok r =>
      simp only [assignRole, bind_ok_iff, exists_unit_iff] at h
      exact systemAssignRole_ok _ h.2
  | systemAssignRole memberDid roleName nonce =>
    simp only [step]
    cases h : s.systemAssignRole memberDid roleName nonce with
    | error e => exact hsame
    | ok r => exact systemAssignRole_ok _ h
  | setCeiling capabilities =>
    simp only [step]
    cases h : s.setCeiling ⟨capabilities⟩ with
    | error e => exact hsame
    | ok t =>
      simp only [setCeiling, bind_ok_iff, exists_unit_iff, pure_ok_iff] at h
      obtain ⟨hvalid, rfl⟩ := h
      exact ⟨.ceiling capabilities rfl hvalid rfl rfl rfl, rfl⟩
  | suspendCapabilities memberDid capabilities => exact ⟨.nothing rfl rfl rfl, rfl⟩
  | restoreCapabilities memberDid capabilities =>
    obtain ⟨hceiling, hmembers, hgrants, hdefs⟩ :=
      keepSuspensions_frame s memberDid (· ∉ capabilities)
    exact ⟨.nothing hceiling hmembers hgrants, hdefs⟩
  | suspendAll memberDid =>
    obtain ⟨hceiling, hmembers, hgrants, hdefs⟩ := suspendAll_frame s memberDid
    exact ⟨.nothing hceiling hmembers hgrants, hdefs⟩
  | removeMember memberDid => exact ⟨.removal memberDid rfl rfl rfl, rfl⟩
  | insertMember memberDid => exact ⟨.arrival memberDid rfl rfl rfl, rfl⟩

end Step

/-- A grant after a step was there before, or copies a definition that fits the ceiling. -/
theorem Writes.grant_cases {t : ContextRoleState} {op : RoleOp} (h : Writes s op t)
    {memberDid : String} {capabilities : List Capability}
    (hgrant : t.memberCapabilities memberDid = some capabilities) :
    (s.memberCapabilities memberDid = some capabilities ∧
      (s.members memberDid = true → t.members memberDid = true)) ∨
    ∃ name role, s.roleDefinitions name = some role ∧ capabilities = role.capabilities ∧
      s.ceiling.containsAll role.capabilities = true ∧ t.ceiling = s.ceiling ∧
      t.members memberDid = true := by
  cases h with
  | nothing _ hmembers hgrants =>
    rw [hgrants] at hgrant
    rw [hmembers]
    exact .inl ⟨hgrant, id⟩
  -- Only an assignment writes a grant, and it checks the role against the ceiling.
  | grant assigned name role member defined fits hceiling hmembers hgrants =>
    rw [hgrants] at hgrant
    rw [hmembers]
    by_cases heq : memberDid = assigned
    · rw [heq, Function.update_self, Option.some.injEq] at hgrant
      exact .inr ⟨name, role, defined, hgrant.symm, fits, hceiling, by rw [heq]; exact member⟩
    · rw [Function.update_of_ne heq] at hgrant
      exact .inl ⟨hgrant, id⟩
  | ceiling _ _ _ _ hmembers hgrants =>
    rw [hgrants] at hgrant
    rw [hmembers]
    exact .inl ⟨hgrant, id⟩
  | removal removed _ hmembers hgrants =>
    rw [hgrants] at hgrant
    by_cases heq : memberDid = removed
    · rw [heq, Function.update_self] at hgrant
      cases hgrant
    · rw [Function.update_of_ne heq] at hgrant
      rw [hmembers, Function.update_of_ne heq]
      exact .inl ⟨hgrant, id⟩
  | arrival arrived _ hmembers hgrants =>
    rw [hgrants] at hgrant
    refine .inl ⟨hgrant, ?_⟩
    intro hmember
    rw [hmembers]
    by_cases heq : memberDid = arrived
    · rw [heq, Function.update_self]
    · rw [Function.update_of_ne heq]
      exact hmember

/-- Only setting a ceiling changes it, and it changes nothing else. -/
theorem Writes.ceiling_cases {t : ContextRoleState} {op : RoleOp} (h : Writes s op t) :
    t.ceiling = s.ceiling ∨ ∃ capabilities, op = .setCeiling capabilities ∧
      (CapabilityCeiling.mk capabilities).validateEntries = .ok () ∧ t.ceiling = ⟨capabilities⟩ := by
  cases h with
  | nothing hceiling _ _ => exact .inl hceiling
  | grant _ _ _ _ _ _ hceiling _ _ => exact .inl hceiling
  | ceiling capabilities set valid hceiling _ _ =>
    exact .inr ⟨capabilities, set, valid, hceiling⟩
  | removal _ hceiling _ _ => exact .inl hceiling
  | arrival _ hceiling _ _ => exact .inl hceiling

section Run
variable {created : CapabilityCeiling}

theorem Rooted.step (h : s.Rooted created) (op : RoleOp) : (s.step op).Rooted created := by
  obtain ⟨hwrites, hdefs⟩ := step_writes s op
  refine ⟨by rw [hdefs]; exact h.definitions, by rw [hdefs]; exact h.admin, ?_⟩
  intro memberDid capabilities hgrant
  rcases hwrites.grant_cases hgrant with ⟨hbefore, hstays⟩ | ⟨name, role, hrole, rfl, -, -, hmember⟩
  · obtain ⟨hmember, hcovers⟩ := h.granted memberDid capabilities hbefore
    exact ⟨hstays hmember, hcovers⟩
  · exact ⟨hmember, h.definitions name role hrole⟩

theorem Rooted.run (h : s.Rooted created) (ops : List RoleOp) : (s.run ops).Rooted created := by
  induction ops using List.reverseRecOn with
  | nil => exact h
  | append_singleton ops op ih =>
    rw [run_append_singleton]
    exact ih.step op

/-- A step keeps the grants within the ceiling, unless it sets one that cuts below the
ceiling of creation while someone is a member. -/
theorem GrantsWithin.step (hroot : s.Rooted created) (h : s.GrantsWithin) {op : RoleOp}
    (hcut : ∀ capabilities, op = .setCeiling capabilities →
      (CapabilityCeiling.mk capabilities).validateEntries = .ok () →
      (∃ memberDid, s.members memberDid = true) →
      (CapabilityCeiling.mk capabilities).containsAll created.capabilities = true) :
    (s.step op).GrantsWithin := by
  have hwrites := (step_writes s op).1
  intro memberDid capabilities hgrant
  rcases hwrites.grant_cases hgrant with ⟨hbefore, -⟩ | ⟨name, role, -, rfl, hfits, hceiling, -⟩
  · rcases hwrites.ceiling_cases with hceiling | ⟨cut, hset, hvalid, hceiling⟩
    · rw [hceiling]
      exact h memberDid capabilities hbefore
    · -- Whoever holds a grant is a member, so the new ceiling covers the one of creation.
      obtain ⟨hmember, hall⟩ := hroot.granted memberDid capabilities hbefore
      have hcovers := hcut cut hset hvalid ⟨memberDid, hmember⟩
      rw [CapabilityCeiling.containsAll, List.all_eq_true] at hall ⊢
      rw [hceiling]
      intro capability hc
      exact created.contains_trans hcovers (hall capability hc)
  · rw [hceiling]
    exact hfits

/-- Over a run that never cuts below the ceiling of creation every grant stays within. -/
theorem GrantsWithin.run (hroot : s.Rooted created) (h : s.GrantsWithin) {ops : List RoleOp}
    (hcut : s.NeverCutBelow created ops) : (s.run ops).GrantsWithin := by
  induction ops using List.reverseRecOn with
  | nil => exact h
  | append_singleton ops op ih =>
    have hearlier : s.NeverCutBelow created ops := by
      intro done capabilities rest hsplit
      exact hcut done capabilities (rest ++ [op]) (by rw [hsplit]; simp)
    rw [run_append_singleton]
    apply (ih hearlier).step (hroot.run ops)
    intro capabilities hop
    exact hcut ops capabilities [] (by rw [hop])

/-- A role is refused for the ceiling exactly where a member asks and the ceiling does not
cover it. -/
theorem systemAssignRole_outside_iff {name : String} {role : RoleDefinition}
    (hrole : s.roleDefinitions name = some role) (memberDid : String)
    (nonce : Capability → String) :
    (∃ named capability, s.systemAssignRole memberDid name nonce =
        .error (.capabilityOutsideCeiling named capability)) ↔
      s.members memberDid = true ∧ s.ceiling.containsAll role.capabilities = false := by
  unfold systemAssignRole
  rw [hrole]
  cases hmember : s.members memberDid with
  | false => simp [require, bind, Except.bind]
  | true =>
    cases hcheck : validateRoleDefinition role s.ceiling with
    | ok u =>
      have hall := (validateRoleDefinition_ok_iff role s.ceiling).mp hcheck
      simp [require, okOr, hcheck, hall, bind, Except.bind, pure, Except.pure]
    | error e =>
      have hnot : s.ceiling.containsAll role.capabilities = false := by
        rw [← Bool.not_eq_true, ← validateRoleDefinition_ok_iff, hcheck]
        simp
      obtain ⟨capability, -, -, rfl⟩ := validateRoleDefinition_error hcheck
      simp [require, okOr, hcheck, hnot, bind, Except.bind]

/-- Where the built-in roles can be assigned to a member, the ceiling covers the one of
creation, which the admin role copies. -/
theorem BuiltinsAssignable.covers (hroot : s.Rooted created) (h : s.BuiltinsAssignable)
    (hmember : ∃ memberDid, s.members memberDid = true) :
    s.ceiling.containsAll created.capabilities = true := by
  obtain ⟨memberDid, hmember⟩ := hmember
  by_contra hnot
  obtain ⟨named, capability, herr⟩ := (systemAssignRole_outside_iff hroot.admin memberDid
    (fun _ => "")).mpr ⟨hmember, by simpa [builtinAdmin] using hnot⟩
  exact h "admin" (by decide) memberDid (fun _ => "") named capability herr

/-- Where the ceiling covers the one of creation, every defined role can be assigned. -/
theorem builtinsAssignable_of_covers (hroot : s.Rooted created)
    (h : (∃ memberDid, s.members memberDid = true) →
      s.ceiling.containsAll created.capabilities = true) : s.BuiltinsAssignable := by
  intro name _ memberDid nonce named capability herr
  cases hrole : s.roleDefinitions name with
  | none =>
    cases hmember : s.members memberDid <;>
      simp [systemAssignRole, hrole, hmember, require, okOr, bind, Except.bind] at herr
  | some role =>
    obtain ⟨hmember, hnot⟩ := (systemAssignRole_outside_iff hrole memberDid nonce).mp
      ⟨named, capability, herr⟩
    have hcovers := h ⟨memberDid, hmember⟩
    have hall := hroot.definitions name role hrole
    rw [CapabilityCeiling.containsAll, List.all_eq_true] at hall
    have hyes : s.ceiling.containsAll role.capabilities = true := by
      rw [CapabilityCeiling.containsAll, List.all_eq_true]
      intro c hc
      exact created.contains_trans hcovers (hall c hc)
    rw [hyes] at hnot
    cases hnot

theorem define_of_unnamed (definitions : String → Option RoleDefinition)
    {roles : List RoleDefinition} {name : String} (h : ∀ role ∈ roles, role.name ≠ name) :
    define definitions roles name = definitions name := by
  induction roles generalizing definitions with
  | nil => rfl
  | cons role roles ih =>
    have hcons : define definitions (role :: roles) =
        define (Function.update definitions role.name (some role)) roles := rfl
    rw [hcons, ih _ (fun r hr => h r (List.mem_cons_of_mem _ hr)),
      Function.update_of_ne (h role List.mem_cons_self).symm]

theorem define_some {definitions : String → Option RoleDefinition} {roles : List RoleDefinition}
    {name : String} {role : RoleDefinition} (h : define definitions roles name = some role) :
    role ∈ roles ∨ definitions name = some role := by
  induction roles generalizing definitions with
  | nil => exact .inr h
  | cons first roles ih =>
    rw [define, List.foldl_cons] at h
    rcases ih h with hin | hbefore
    · exact .inl (List.mem_cons_of_mem _ hin)
    · by_cases heq : name = first.name
      · rw [heq, Function.update_self, Option.some.injEq] at hbefore
        exact .inl (by rw [hbefore]; exact List.mem_cons_self)
      · rw [Function.update_of_ne heq] at hbefore
        exact .inr hbefore

end Run

theorem custom_ne_reserved {name reserved : String} (h : validateRoleName name = .ok ())
    (hr : reserved ∈ reservedRoleNames) : name ≠ reserved := by
  simp only [validateRoleName, bind_ok_iff, exists_unit_iff, require_ok_iff, decide_eq_true_eq] at h
  intro heq
  exact h.2.2.1 (heq ▸ hr)

/-- A new context holds only what its own ceiling covers. -/
theorem new_ok {contextId creatorDid : String} {ceiling : CapabilityCeiling}
    {customRoles : List RoleDefinition} {nonce : Capability → String}
    (h : new contextId creatorDid ceiling customRoles nonce = .ok s) :
    s.Rooted ceiling ∧ s.GrantsWithin := by
  simp only [new, bind_ok_iff, mapError_ok_iff, checkEach_ok_iff, exists_unit_iff, pure_ok_iff,
    validateRoleDefinition_ok_iff] at h
  obtain ⟨-, hcustom, rfl⟩ := h
  -- No custom role takes a reserved name, so the admin role is the built-in one.
  have hadmin : define (fun _ => none)
      (builtinRoles ceiling ++ builtinBroadcastRoles ceiling ++ customRoles) "admin" =
        some (builtinAdmin ceiling) := by
    have hafter : ∀ role ∈ [builtinModerator ceiling, builtinMember ceiling,
        builtinObserver ceiling] ++ builtinBroadcastRoles ceiling ++ customRoles,
        role.name ≠ "admin" := by
      intro role hrole
      rcases List.mem_append.mp hrole with hbuiltin | hrole
      · simp only [builtinBroadcastRoles, List.cons_append, List.nil_append, List.mem_cons,
          List.not_mem_nil, or_false] at hbuiltin
        rcases hbuiltin with rfl | rfl | rfl | rfl | rfl <;>
          simp [builtinModerator, builtinMember, builtinObserver, builtinAuthor, builtinSubscriber,
            cutTo]
      · exact custom_ne_reserved (hcustom role hrole).1 (by decide)
    have hcons : builtinRoles ceiling ++ builtinBroadcastRoles ceiling ++ customRoles =
        builtinAdmin ceiling :: ([builtinModerator ceiling, builtinMember ceiling,
          builtinObserver ceiling] ++ builtinBroadcastRoles ceiling ++ customRoles) := rfl
    rw [hcons]
    exact (define_of_unnamed _ hafter).trans (Function.update_self _ _ _)
  have hdefs : ∀ name role, define (fun _ => none)
      (builtinRoles ceiling ++ builtinBroadcastRoles ceiling ++ customRoles) name = some role →
        ceiling.containsAll role.capabilities = true := by
    intro name role hrole
    rcases define_some hrole with hin | hnone
    · rcases List.mem_append.mp hin with hbuiltin | hcust
      · exact builtin_within hbuiltin
      · exact (hcustom role hcust).2
    · cases hnone
  have hgrants : ∀ memberDid capabilities, Function.update (fun _ => none) creatorDid
      (some (builtinAdmin ceiling).capabilities) memberDid = some capabilities →
        memberDid = creatorDid ∧ ceiling.containsAll capabilities = true := by
    intro memberDid capabilities hgrant
    by_cases heq : memberDid = creatorDid
    · rw [heq, Function.update_self, Option.some.injEq] at hgrant
      rw [← hgrant]
      exact ⟨heq, hdefs "admin" _ hadmin⟩
    · rw [Function.update_of_ne heq] at hgrant
      cases hgrant
  simp only [hadmin, Option.getD_some]
  refine ⟨⟨hdefs, hadmin, ?_⟩, ?_⟩
  · intro memberDid capabilities hgrant
    obtain ⟨rfl, hcovers⟩ := hgrants memberDid capabilities hgrant
    exact ⟨by simp, hcovers⟩
  · intro memberDid capabilities hgrant
    exact (hgrants memberDid capabilities hgrant).2

/-- **Exactly** the runs that never cut below the ceiling of creation keep every member
within the ceiling and every built-in role assignable. -/
theorem ceiling_holds_iff_never_cut {contextId creatorDid : String} {created : CapabilityCeiling}
    {customRoles : List RoleDefinition} {nonce : Capability → String}
    (h : new contextId creatorDid created customRoles nonce = .ok s) (ops : List RoleOp) :
    s.CeilingHolds ops ↔ s.NeverCutBelow created ops := by
  obtain ⟨hroot, hgrants⟩ := new_ok h
  have hset {done : List RoleOp} {capabilities : List Capability}
      (hvalid : (CapabilityCeiling.mk capabilities).validateEntries = .ok ()) :
      (s.run (done ++ [.setCeiling capabilities])) = { s.run done with ceiling := ⟨capabilities⟩ } := by
    rw [run_append_singleton]
    simp only [step, setCeiling, hvalid]
    rfl
  constructor
  · intro hholds done capabilities rest hsplit hvalid hmember
    have hok : ((s.run done).setCeiling ⟨capabilities⟩).isOk = true := by
      simp only [setCeiling, hvalid]
      rfl
    have hassignable := hholds.assignable done capabilities rest hsplit hok
    have hcovers := hassignable.covers (hroot.run _) (by rw [hset hvalid]; exact hmember)
    rw [hset hvalid] at hcovers
    exact hcovers
  · intro hcut
    refine ⟨?_, ?_⟩
    · intro done rest hsplit
      apply GrantsWithin.within
      apply hgrants.run hroot
      intro before capabilities after hbefore
      exact hcut before capabilities (after ++ rest) (by rw [hsplit, hbefore]; simp)
    · intro done capabilities rest hsplit hok
      have hvalid : (CapabilityCeiling.mk capabilities).validateEntries = .ok () := by
        unfold setCeiling at hok
        cases hv : (CapabilityCeiling.mk capabilities).validateEntries with
        | ok u => rfl
        | error e =>
          rw [hv] at hok
          cases hok
      apply builtinsAssignable_of_covers (hroot.run _)
      intro hmember
      rw [hset hvalid] at hmember ⊢
      exact hcut done capabilities rest hsplit hvalid hmember

end ContextRoleState

/-- A ceiling change that waits out its notification period. -/
structure PendingCeilingModification where
  newCapabilities : List Capability
  notifiedAt : ℕ
  effectiveAt : ℕ
  observedAt : ℕ
  proposalId : String
  deriving DecidableEq

def ceilingChangeNotificationPeriodSecs : ℕ := 259200

/-- Both the agreed moment and a full period of locally observed time have passed. -/
def PendingCeilingModification.isEffective (pending : PendingCeilingModification)
    (currentTimestamp : ℕ) : Bool :=
  max pending.effectiveAt
    (min (pending.observedAt+ceilingChangeNotificationPeriodSecs) (2^64-1)) ≤ currentTimestamp

inductive CeilingChangeError
  | contextNotActive
  | malformedEntry (error : CeilingEntryError)
  | notPersisted
  deriving DecidableEq

/-- The parts of a context's cell that a ceiling change reads and writes. -/
structure CeilingCell where
  active : Bool
  roleState : ContextRoleState
  pending : Option PendingCeilingModification

/-- Applies a pending change that is effective; where the write is not persisted the new
ceiling stays all the same. -/
def CeilingCell.applyPendingCeilingModification (cell : CeilingCell) (currentTimestamp : ℕ)
    (persists : Bool) : Except CeilingChangeError Bool × CeilingCell :=
  if !cell.active then (.error .contextNotActive, cell)
  else match cell.pending.filter (·.isEffective currentTimestamp) with
    | none => (.ok false, cell)
    | some pending =>
      match cell.roleState.setCeiling ⟨pending.newCapabilities⟩ with
      | .error e => (.error (.malformedEntry e), cell)
      | .ok roleState =>
        (if persists then .ok true else .error .notPersisted, { cell with roleState, pending := none })

/-- Applying a pending change takes the role state no step or one ceiling step. -/
theorem CeilingCell.apply_steps (cell : CeilingCell) (currentTimestamp : ℕ) (persists : Bool) :
    (cell.applyPendingCeilingModification currentTimestamp persists).2.roleState =
        cell.roleState ∨
      ∃ pending, cell.pending = some pending ∧ pending.isEffective currentTimestamp = true ∧
        (cell.applyPendingCeilingModification currentTimestamp persists).2.roleState =
          cell.roleState.step (.setCeiling pending.newCapabilities) := by
  unfold applyPendingCeilingModification
  by_cases hactive : (!cell.active) = true
  · rw [if_pos hactive]
    exact .inl rfl
  rw [if_neg hactive]
  cases hp : cell.pending.filter (·.isEffective currentTimestamp) with
  | none => exact .inl rfl
  | some pending =>
    obtain ⟨hpending, heffective⟩ := Option.filter_eq_some_iff.mp hp
    cases hset : cell.roleState.setCeiling ⟨pending.newCapabilities⟩ with
    | error e =>
      left
      simp only [hset]
    | ok roleState =>
      refine .inr ⟨pending, hpending, heffective, ?_⟩
      simp only [ContextRoleState.step, hset]

section Sample

/-- A context whose ceiling lets messages be read and roles be assigned. -/
def sampleContext : Except RoleError ContextRoleState :=
  ContextRoleState.new "context" "creator" ⟨[.messagesRead, .roleAssign]⟩ [] (fun _ => "nonce")

def sampleRoles : ContextRoleState := okGet sampleContext (by decide +kernel)

/-- Cut to reading alone, the ceiling leaves the creator a grant outside it, and the admin
role cannot be assigned any more. -/
theorem narrowed_ceiling_left_behind : sampleContext = .ok sampleRoles ∧
    ¬ sampleRoles.CeilingHolds [.setCeiling [.messagesRead]] ∧
    (sampleRoles.run [.setCeiling [.messagesRead]]).memberHasCapability "creator" .roleAssign =
      true ∧
    (sampleRoles.run [.setCeiling [.messagesRead]]).ceiling.contains .roleAssign = false ∧
    ((sampleRoles.run [.setCeiling [.messagesRead]]).systemAssignRole "creator" "admin"
      (fun _ => "nonce")).map Prod.fst = .error (.capabilityOutsideCeiling "admin" .roleAssign) := by
  have hhas : (sampleRoles.run [.setCeiling [.messagesRead]]).memberHasCapability "creator"
      .roleAssign = true := by decide +kernel
  have hout : (sampleRoles.run [.setCeiling [.messagesRead]]).ceiling.contains .roleAssign =
      false := by decide +kernel
  refine ⟨eq_okGet _ _, ?_, hhas, hout, by decide +kernel⟩
  intro hholds
  have hin := hholds.within [.setCeiling [.messagesRead]] [] rfl "creator" .roleAssign hhas
  rw [hout] at hin
  cases hin

/-- Widened instead, it keeps everything in place. -/
theorem ceiling_holds_iff_never_cut_sample :
    sampleRoles.CeilingHolds [.setCeiling [.messagesRead, .messagesWrite, .roleAssign]] := by
  apply (ContextRoleState.ceiling_holds_iff_never_cut (eq_okGet sampleContext _) _).mpr
  intro done capabilities rest hsplit _ _
  have hmem : RoleOp.setCeiling capabilities ∈
      [RoleOp.setCeiling [.messagesRead, .messagesWrite, .roleAssign]] := by
    rw [hsplit]
    simp
  rw [List.mem_singleton, RoleOp.setCeiling.injEq] at hmem
  rw [hmem]
  decide

end Sample

end ScpCore.Roles
