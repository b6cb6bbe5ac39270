import ScpCore.KeyText
import ScpCore.UcanCapability

/-! Capabilities, the grammar a ceiling entry has to meet, and the role definitions that
are cut from a ceiling. A set of capabilities is the list its iteration goes through. -/

namespace ScpCore.Roles

open Ucan (stripPrefix splitOnce)

inductive Capability
  | messagesRead | messagesWrite
  | outletQuery (id : String) | outletQueryAll
  | outletCall (id : String) | outletCallAll
  | outletRegister | memberInvite | memberRemove | roleAssign
  | governancePropose | governanceVote | contextClose | childContextCreate | outletInterface
  | mediaVoice | mediaVideo | mediaScreenShare | memberBan | metadataEdit
  | custom (name : String)
  deriving DecidableEq

def isLowerOrDigit (c : Char) : Bool := ('a' ≤ c && c ≤ 'z') || ('0' ≤ c && c ≤ '9')

/-- An outlet id after its stem: 1 to 128 characters of `[a-z0-9_-]`. -/
def parseOutletSuffix (suffix : List Char) : Option String :=
  if suffix = [] || 128 < suffix.length then none
  else if !suffix.all (fun c => isLowerOrDigit c || c = '_' || c = '-') then none
  else some (String.ofList suffix)

namespace Capability

/-- The built-in names, each in its colon form and, where it differs, its UCAN form. -/
def builtinNames : List (String × Capability) :=
  [("messages:read", messagesRead), ("messages:write", messagesWrite),
    ("outlet:query:*", outletQueryAll), ("outlet_query:*", outletQueryAll),
    ("outlet:call:*", outletCallAll), ("outlet_call:*", outletCallAll),
    ("outlet:register", outletRegister), ("member:invite", memberInvite),
    ("member:remove", memberRemove), ("role:assign", roleAssign),
    ("governance:propose", governancePropose), ("governance:vote", governanceVote),
    ("context:close", contextClose), ("context:child:create", childContextCreate),
    ("context_child:create", childContextCreate), ("outlet:interface", outletInterface),
    ("media:voice", mediaVoice), ("media:video", mediaVideo),
    ("media:screen_share", mediaScreenShare), ("member:ban", memberBan),
    ("metadata:edit", metadataEdit)]

/-- The four outlet stems with the capability each makes of an id. -/
def outletStems : List (String × (String → Capability)) :=
  [("outlet:query:", outletQuery), ("outlet_query:", outletQuery),
    ("outlet:call:", outletCall), ("outlet_call:", outletCall)]

/-- Stems and names that were removed and never parse. -/
def deletedStems : List String :=
  ["outlet:invoke:", "outlet_invoke:", "tool:invoke:", "tool_invoke:"]

def deletedNames : List String :=
  ["tool:register", "tool:interface", "tool_register", "tool_interface"]

/-- Parses a name; `none` for a deleted stem or a malformed outlet id. -/
def new (name : String) : Option Capability :=
  if deletedStems.any (fun stem => (stripPrefix stem.toList name.toList).isSome) then none
  else if name ∈ deletedNames then none
  else match builtinNames.find? (·.1 = name) with
    | some (_, capability) => some capability
    | none =>
      match outletStems.findSome? (fun (stem, make) =>
          (stripPrefix stem.toList name.toList).map (fun suffix => (suffix, make))) with
      | some (suffix, make) => (parseOutletSuffix suffix).map make
      | none =>
        match stripPrefix "custom:".toList name.toList with
        | some rest => some (custom (String.ofList rest))
        | none => some (custom name)

/-- The canonical input name. -/
def name : Capability → String
  | messagesRead => "messages:read"
  | messagesWrite => "messages:write"
  | outletQuery id => "outlet:query:" ++ id
  | outletQueryAll => "outlet:query:*"
  | outletCall id => "outlet:call:" ++ id
  | outletCallAll => "outlet:call:*"
  | outletRegister => "outlet:register"
  | memberInvite => "member:invite"
  | memberRemove => "member:remove"
  | roleAssign => "role:assign"
  | governancePropose => "governance:propose"
  | governanceVote => "governance:vote"
  | contextClose => "context:close"
  | childContextCreate => "context:child:create"
  | outletInterface => "outlet:interface"
  | mediaVoice => "media:voice"
  | mediaVideo => "media:video"
  | mediaScreenShare => "media:screen_share"
  | memberBan => "member:ban"
  | metadataEdit => "metadata:edit"
  | custom name => name

/-- `str::rsplit_once` at a colon. -/
def rsplitColon (text : List Char) : Option (List Char × List Char) :=
  (splitOnce ':' text.reverse).map (fun parts => (parts.2.reverse, parts.1.reverse))

/-- The resource and the action of a capability in its UCAN form. -/
def ucanResourceAction : Capability → String × String
  | messagesRead => ("messages", "read")
  | messagesWrite => ("messages", "write")
  | outletQuery id => ("outlet_query", id)
  | outletQueryAll => ("outlet_query", "*")
  | outletCall id => ("outlet_call", id)
  | outletCallAll => ("outlet_call", "*")
  | outletRegister => ("outlet", "register")
  | memberInvite => ("member", "invite")
  | memberRemove => ("member", "remove")
  | roleAssign => ("role", "assign")
  | governancePropose => ("governance", "propose")
  | governanceVote => ("governance", "vote")
  | contextClose => ("context", "close")
  | childContextCreate => ("context_child", "create")
  | outletInterface => ("outlet", "interface")
  | mediaVoice => ("media", "voice")
  | mediaVideo => ("media", "video")
  | mediaScreenShare => ("media", "screen_share")
  | memberBan => ("member", "ban")
  | metadataEdit => ("metadata", "edit")
  | custom name =>
    match rsplitColon name.toList with
    | some (resource, action) =>
      (String.ofList (resource.map (fun c => if c = ':' then '_' else c)), String.ofList action)
    | none => (name, name)

/-- The built-in capabilities that carry no caller text. -/
def builtinCapabilities : List Capability :=
  [messagesRead, messagesWrite, outletQueryAll, outletCallAll, outletRegister, memberInvite,
    memberRemove, roleAssign, governancePropose, governanceVote, contextClose, childContextCreate,
    outletInterface, mediaVoice, mediaVideo, mediaScreenShare, memberBan, metadataEdit]

end Capability

/-- `InvalidCeilingCategory`: the entry as supplied, and the rule it breaks. -/
structure CeilingEntryError where
  entry : String
  reason : String
  deriving DecidableEq

def maxCeilingEntryLength : ℕ := 256

def maxOutletIdLength : ℕ := 128

/-- `char::is_control`. -/
def isControl (c : Char) : Bool := c.toNat ≤ 0x1f || (0x7f ≤ c.toNat && c.toNat ≤ 0x9f)

/-- `char::is_whitespace`. -/
def isWhitespace (c : Char) : Bool :=
  (0x09 ≤ c.toNat && c.toNat ≤ 0x0d) || (0x2000 ≤ c.toNat && c.toNat ≤ 0x200a) ||
    c.toNat ∈ [0x20, 0x85, 0xa0, 0x1680, 0x2028, 0x2029, 0x202f, 0x205f, 0x3000]

/-- `str::len`, in bytes. -/
def byteLen (text : List Char) : ℕ := (text.map Char.utf8Size).sum

def validateCeilingEntryCharset (entry : String) : Except CeilingEntryError Unit := do
  require (byteLen entry.toList ≤ maxCeilingEntryLength) ⟨entry, "exceeds maximum length of " ++
    toString maxCeilingEntryLength ++ " bytes (got " ++ toString (byteLen entry.toList) ++
    " bytes)"⟩
  checkEach (fun c => do
    require (!isControl c)
      ⟨entry, "contains a control character (U+0000–U+001F / U+007F–U+009F)"⟩
    require (!isWhitespace c) ⟨entry, "contains whitespace"⟩
    require (c ∉ ['<', '>', '&', '"', '\''])
      ⟨entry, "contains an HTML-special character (< > & \" ')"⟩) entry.toList

def isKebabToken (token : List Char) : Bool :=
  token ≠ [] && token.all (fun c => isLowerOrDigit c || c = '-')

def isOutletIdToken (outletId : List Char) : Bool :=
  outletId ≠ [] && outletId.all (fun c => isLowerOrDigit c || c = '-' || c = '_')

def builtinCeilingCategories : List String :=
  ["messages:read", "messages:write", "outlet:register", "outlet:query:*", "outlet:call:*",
    "member:invite", "member:remove", "member:ban", "role:assign", "media:voice", "media:video",
    "media:screen_share", "outlet:interface", "context:child:create", "governance:propose",
    "governance:vote", "context:close", "metadata:edit"]

/-- A custom entry: one colon, a kebab resource, and a kebab action or a wildcard that
shadows no built-in family. -/
def validateCustomCeilingEntry (entry : String) : Except CeilingEntryError Unit := do
  let (resource, action) ← okOr (splitOnce ':' entry.toList) (⟨entry, "single-token custom (no " ++
    "colon); a custom capability must be resource:action and is never silently widened to a " ++
    "wildcard"⟩ : CeilingEntryError)
  require (':' ∉ action) ⟨entry, "more than one colon; a custom ceiling entry has exactly one colon"⟩
  require (isKebabToken resource)
    ⟨entry, "resource must be a non-empty kebab-case [a-z0-9-] token (no '*', no whitespace)"⟩
  require (action = ['*'] || isKebabToken action) ⟨entry,
    "action must be a non-empty kebab-case [a-z0-9-] token or the single literal '*'"⟩
  require (!(action = ['*'] && Capability.builtinCapabilities.any
      (fun c => c.ucanResourceAction.1.toList = resource)))
    ⟨entry, "custom resource wildcard shadows a built-in capability family (§5.3.1.1 no " ++
      "built-in-resource wildcard shadow)"⟩

def validateCeilingEntry (entry : String) : Except CeilingEntryError Unit := do
  validateCeilingEntryCharset entry
  if entry ∈ builtinCeilingCategories then pure ()
  else
    let parameterized := (stripPrefix "outlet:query:".toList entry.toList).or
      (stripPrefix "outlet:call:".toList entry.toList)
    match parameterized with
    | some outletId => do
      require (byteLen outletId ≤ maxOutletIdLength) ⟨entry, "outlet_id exceeds maximum length of " ++
        toString maxOutletIdLength ++ " bytes"⟩
      require (isOutletIdToken outletId) ⟨entry,
        "outlet_id must be a non-empty [a-z0-9_-] token (no '*', no ':', no whitespace)"⟩
    | none => validateCustomCeilingEntry entry

/-- A custom that names a built-in in any spelling, or a deleted stem, is refused before
the grammar is asked. -/
def Capability.validateAsCeilingEntry : Capability → Except CeilingEntryError Unit
  | .custom name => do
    require (match Capability.new name with | some (.custom _) => true | _ => false) ⟨name,
      "custom ceiling entry names a built-in capability (it resolves to a built-in variant in " ++
      "its colon or canonical UCAN spelling), or names a deleted/invalid stem the parser " ++
      "rejects; a custom must not masquerade as a privileged built-in (§5.3.1.1 no " ++
      "privileged-built-in collision)"⟩
    validateCeilingEntry name
  | .outletQuery id => validateCeilingEntry (Capability.outletQuery id).name
  | .outletCall id => validateCeilingEntry (Capability.outletCall id).name
  | _ => .ok ()

structure CapabilityCeiling where
  capabilities : List Capability
  deriving DecidableEq

/-- The wildcard of an outlet capability's class; the two classes are disjoint. -/
def Capability.wildcard : Capability → Option Capability
  | .outletQuery _ => some .outletQueryAll
  | .outletCall _ => some .outletCallAll
  | _ => none

/-- No wildcard is implied by another. -/
theorem Capability.wildcard_wildcard {capability wild : Capability}
    (h : capability.wildcard = some wild) : wild.wildcard = none := by
  cases capability <;> cases h <;> rfl

namespace CapabilityCeiling
variable (ceiling : CapabilityCeiling)

/-- Within the ceiling: listed, or an outlet under the listed wildcard of its class. -/
def contains (capability : Capability) : Bool :=
  capability ∈ ceiling.capabilities || capability.wildcard.any (· ∈ ceiling.capabilities)

def containsAll (capabilities : List Capability) : Bool := capabilities.all ceiling.contains

def validateEntries : Except CeilingEntryError Unit :=
  checkEach Capability.validateAsCeilingEntry ceiling.capabilities

theorem contains_of_mem {capability : Capability} (h : capability ∈ ceiling.capabilities) :
    ceiling.contains capability = true := by
  rw [contains, decide_eq_true h, Bool.true_or]

/-- A ceiling that covers another's entries covers all that is within it. -/
theorem contains_trans {wider : CapabilityCeiling}
    (h : wider.containsAll ceiling.capabilities = true) {capability : Capability}
    (hc : ceiling.contains capability = true) : wider.contains capability = true := by
  rw [containsAll, List.all_eq_true] at h
  rw [contains, Bool.or_eq_true, decide_eq_true_eq] at hc
  rcases hc with hmem | hwild
  · exact h capability hmem
  · obtain ⟨wild, hw, hmem⟩ := (Option.any_eq_true _ _).mp hwild
    rw [decide_eq_true_eq] at hmem
    -- Nothing implies a wildcard, so the wider ceiling lists it.
    have hin : wild ∈ wider.capabilities := by
      have hall := h wild hmem
      rwa [contains, Capability.wildcard_wildcard hw, Option.any_none, Bool.or_false,
        decide_eq_true_eq] at hall
    rw [contains, hw, Option.any_some, decide_eq_true hin, Bool.or_true]

end CapabilityCeiling

structure RoleDefinition where
  name : String
  capabilities : List Capability
  deriving DecidableEq

/-- A built-in role: the wished capabilities that are within the ceiling. -/
def cutTo (ceiling : CapabilityCeiling) (name : String) (desired : List Capability) :
    RoleDefinition := ⟨name, desired.filter ceiling.contains⟩

def builtinAdmin (ceiling : CapabilityCeiling) : RoleDefinition := ⟨"admin", ceiling.capabilities⟩

def builtinMember (ceiling : CapabilityCeiling) : RoleDefinition :=
  cutTo ceiling "member" [.messagesRead, .messagesWrite, .outletQueryAll, .outletCallAll]

def builtinModerator (ceiling : CapabilityCeiling) : RoleDefinition :=
  cutTo ceiling "moderator" [.messagesRead, .messagesWrite, .outletQueryAll, .outletCallAll,
    .memberRemove, .governancePropose]

def builtinObserver (ceiling : CapabilityCeiling) : RoleDefinition :=
  cutTo ceiling "observer" [.messagesRead]

def builtinAuthor (ceiling : CapabilityCeiling) : RoleDefinition :=
  cutTo ceiling "author" [.messagesWrite, .messagesRead, .outletQueryAll, .outletCallAll]

def builtinSubscriber (ceiling : CapabilityCeiling) : RoleDefinition :=
  cutTo ceiling "subscriber" [.messagesRead]

def builtinRoles (ceiling : CapabilityCeiling) : List RoleDefinition :=
  [builtinAdmin ceiling, builtinModerator ceiling, builtinMember ceiling, builtinObserver ceiling]

def builtinBroadcastRoles (ceiling : CapabilityCeiling) : List RoleDefinition :=
  [builtinAuthor ceiling, builtinSubscriber ceiling]

/-- Every built-in role is cut from its ceiling. -/
theorem builtin_within {ceiling : CapabilityCeiling} {role : RoleDefinition}
    (h : role ∈ builtinRoles ceiling ++ builtinBroadcastRoles ceiling) :
    ceiling.containsAll role.capabilities = true := by
  have hcut (name : String) (desired : List Capability) :
      ceiling.containsAll (cutTo ceiling name desired).capabilities = true := by
    rw [CapabilityCeiling.containsAll, List.all_eq_true]
    intro capability hc
    exact (List.mem_filter.mp hc).2
  simp only [builtinRoles, builtinBroadcastRoles, List.cons_append, List.nil_append, List.mem_cons,
    List.not_mem_nil, or_false] at h
  rcases h with rfl | rfl | rfl | rfl | rfl | rfl
  · rw [CapabilityCeiling.containsAll, List.all_eq_true]
    exact fun capability hc => ceiling.contains_of_mem hc
  all_goals exact hcut _ _

inductive RoleError
  | capabilityOutsideCeiling (role : String) (capability : Capability)
  | roleNotFound (role : String)
  | assignerNotAuthorized (assigner : String)
  | memberNotInContext (member : String)
  | invalidRoleName (reason : String)
  | invalidCeilingCategory (error : CeilingEntryError)
  deriving DecidableEq

def maxRoleNameLength : ℕ := 64

def reservedRoleNames : List String :=
  ["admin", "moderator", "member", "observer", "author", "subscriber"]

def validateRoleName (name : String) : Except RoleError Unit := do
  require (name ≠ "") (.invalidRoleName "role name must not be empty")
  require (byteLen name.toList ≤ maxRoleNameLength) (.invalidRoleName
    ("role name exceeds maximum length of " ++ toString maxRoleNameLength ++ " bytes (got " ++
      toString (byteLen name.toList) ++ " bytes)"))
  require (name ∉ reservedRoleNames)
    (.invalidRoleName ("'" ++ name ++ "' is a reserved built-in role name"))
  require (!name.toList.head?.any (· ∈ ['-', '_']))
    (.invalidRoleName ("'" ++ name ++ "' must not start with a hyphen or underscore"))
  require (!name.toList.getLast?.any (· ∈ ['-', '_']))
    (.invalidRoleName ("'" ++ name ++ "' must not end with a hyphen or underscore"))
  checkEach (fun c => require (isLowerOrDigit c || c = '-' || c = '_') (.invalidRoleName
    ("'" ++ name ++ "' contains invalid character '" ++ String.singleton c ++
      "' (only lowercase ASCII letters, digits, hyphens, and underscores allowed)"))) name.toList

def validateRoleDefinition (role : RoleDefinition) (ceiling : CapabilityCeiling) :
    Except RoleError Unit :=
  checkEach (fun capability => require (ceiling.contains capability)
    (.capabilityOutsideCeiling role.name capability)) role.capabilities

/-- A role passes exactly where the ceiling covers it. -/
theorem validateRoleDefinition_ok_iff (role : RoleDefinition) (ceiling : CapabilityCeiling) :
    validateRoleDefinition role ceiling = .ok () ↔ ceiling.containsAll role.capabilities = true := by
  simp [validateRoleDefinition, CapabilityCeiling.containsAll]

/-- What it fails with names a capability of the role that is outside. -/
theorem validateRoleDefinition_error {role : RoleDefinition} {ceiling : CapabilityCeiling}
    {e : RoleError} (h : validateRoleDefinition role ceiling = .error e) :
    ∃ capability ∈ role.capabilities, ceiling.contains capability = false ∧
      e = .capabilityOutsideCeiling role.name capability := by
  unfold validateRoleDefinition at h
  generalize role.capabilities = capabilities at h ⊢
  induction capabilities with
  | nil => cases h
  | cons capability rest ih =>
    rw [checkEach] at h
    rcases bind_error_cases h with hone | ⟨-, -, hrest⟩
    · obtain ⟨hout, he⟩ := (require_error_iff _ _ _).mp hone
      exact ⟨capability, List.mem_cons_self, hout, he.symm⟩
    · obtain ⟨found, hmem, hfound⟩ := ih hrest
      exact ⟨found, List.mem_cons_of_mem _ hmem, hfound⟩

end ScpCore.Roles
