import ScpCore.Caveats

/-! Capability URIs of UCAN tokens: their text form, when one grants another, and the
ceiling of a context. -/

namespace ScpCore.Ucan

open Caveats

inductive ExpiryError
  | invalidTimeRange (nbf exp : ℕ)
  | tokenExpired
  | expiryTooFar (exp : ℕ)
  | tokenNotYetValid
  deriving DecidableEq

/-- Why a delegation chain is broken. -/
inductive ChainBreak
  | unresolvedProof (cid : String)
  | exceedsMaximumDepth
  | audIssMismatch (parentAud childIss : String)
  | parentExpiry (error : ExpiryError)
  | parentRevoked (cid : String)
  | divergentRootIssuers (existing found : String)
  | noRootIssuer
  deriving DecidableEq

inductive UcanError
  | malformedToken (reason : String)
  | unsupportedAlgorithm (alg : String)
  | unsupportedVersion (ucv : String)
  | signatureInvalid
  | invalidIssuer (expected actual : String)
  | audienceMismatch (expected actual : String)
  | expiry (error : ExpiryError)
  | nonce (reason : String)
  | capabilityOutsideCeiling (name : String)
  | capabilityNotGranted (uri : String)
  | attenuationViolation (reason : String)
  | delegationChainBroken (reason : ChainBreak)
  | circularDelegation (issuer : String)
  | tokenRevoked (cid : String)
  | keyScopeMismatch (expectedScope actualKid : String)
  | selfDelegationWithoutKeyScope
  | categoryAViolation (action kid : String)
  | invalidCapabilityUri (reason : String)
  | caveatAttenuationViolation (violation : AttenuationViolation)
  | caveatTimeBoxViolation (violation : CaveatTimeBoxViolation)
  deriving DecidableEq

/-- `str::strip_prefix`. -/
def stripPrefix : List Char → List Char → Option (List Char)
  | [], text => some text
  | _ :: _, [] => none
  | p :: ps, c :: text => if p = c then stripPrefix ps text else none

/-- `str::split_once`. -/
def splitOnce (sep : Char) : List Char → Option (List Char × List Char)
  | [] => none
  | c :: text =>
    if c = sep then some ([], text) else (splitOnce sep text).map (fun parts => (c :: parts.1, parts.2))

theorem stripPrefix_eq_some_iff {stem text rest : List Char} :
    stripPrefix stem text = some rest ↔ text = stem ++ rest := by
  induction stem generalizing text with
  | nil => simp [stripPrefix]
  | cons p ps ih =>
    cases text with
    | nil => simp [stripPrefix]
    | cons c text =>
      by_cases h : p = c
      · simp [stripPrefix, h, ih]
      · simp [stripPrefix, h, Ne.symm h]

theorem splitOnce_eq_some_iff {sep : Char} {text a b : List Char} :
    splitOnce sep text = some (a, b) ↔ sep ∉ a ∧ text = a ++ sep :: b := by
  induction text generalizing a with
  | nil => simp [splitOnce]
  | cons c text ih =>
    by_cases hc : c = sep
    · subst hc
      rw [splitOnce, if_pos rfl]
      cases a with
      | nil => simp
      | cons d a =>
        -- The first character of a nonempty part would be the separator.
        simp only [Option.some.injEq, Prod.mk.injEq, List.cons_append, List.cons.injEq]
        constructor
        · intro h
          cases h.1
        · intro ⟨hnot, hd, _⟩
          exact absurd (List.mem_cons.mpr (Or.inl hd)) hnot
    · rw [splitOnce, if_neg hc, Option.map_eq_some_iff]
      cases a with
      | nil => simp [hc]
      | cons d a =>
        constructor
        · intro ⟨⟨a', b'⟩, hrest, heq⟩
          simp only [Prod.mk.injEq, List.cons.injEq] at heq
          obtain ⟨⟨rfl, rfl⟩, rfl⟩ := heq
          obtain ⟨hnot, htext⟩ := ih.mp hrest
          exact ⟨by simp [Ne.symm hc, hnot], by rw [htext]; rfl⟩
        · intro ⟨hnot, htext⟩
          rw [List.cons_append, List.cons.injEq] at htext
          obtain ⟨rfl, htext⟩ := htext
          rw [List.mem_cons, not_or] at hnot
          exact ⟨(a, b), ih.mpr ⟨hnot.2, htext⟩, rfl⟩

/-- A capability; no context id stands for every context. -/
structure CapabilityUri where
  contextId : Option String
  resource : String
  action : String
  deriving DecidableEq

namespace CapabilityUri

def fromStr (s : String) : Except UcanError CapabilityUri := do
  let rest ← okOr (stripPrefix "scp:ctx:".toList s.toList)
    (.invalidCapabilityUri ("missing 'scp:ctx:' prefix in '" ++ s ++ "'"))
  let (ctxPart, capabilityPart) ← okOr (splitOnce '/' rest)
    (.invalidCapabilityUri
      ("missing '/' separator between context ID and capability in '" ++ s ++ "'"))
  require (ctxPart ≠ []) (.invalidCapabilityUri ("empty context ID in '" ++ s ++ "'"))
  let contextId := if ctxPart = ['*'] then none else some (String.ofList ctxPart)
  let (resource, action) ← okOr (splitOnce ':' capabilityPart)
    (.invalidCapabilityUri ("missing ':' separator between resource and action in '" ++ s ++ "'"))
  require (resource ≠ []) (.invalidCapabilityUri ("empty resource in '" ++ s ++ "'"))
  require (action ≠ []) (.invalidCapabilityUri ("empty action in '" ++ s ++ "'"))
  pure ⟨contextId, String.ofList resource, String.ofList action⟩

def capabilityName (uri : CapabilityUri) : String := uri.resource ++ ":" ++ uri.action

def display (uri : CapabilityUri) : String :=
  "scp:ctx:" ++ uri.contextId.getD "*" ++ "/" ++ uri.capabilityName

def isOutletStem (uri : CapabilityUri) : Bool :=
  uri.resource = "outlet_query" || uri.resource = "outlet_call"

/-- The granting context is any, or the required one. -/
def contextGrants : Option String → Option String → Bool
  | none, _ => true
  | some granted, some req => granted = req
  | some _, none => false

/-- `matches`: the capability grants the required one. -/
def grants (uri required : CapabilityUri) : Bool :=
  uri.resource = required.resource && (uri.action = "*" || uri.action = required.action) &&
    contextGrants uri.contextId required.contextId

def isWithinCeiling (uri : CapabilityUri) (ceiling : List String) : Bool :=
  uri.capabilityName ∈ ceiling || (uri.resource ++ ":*") ∈ ceiling

end CapabilityUri

def verifyCeilingCompliance (capabilities : List CapabilityUri) (ceiling : List String) :
    Except UcanError Unit :=
  checkEach (fun cap => require (cap.isWithinCeiling ceiling)
    (.capabilityOutsideCeiling cap.capabilityName)) capabilities

def checkCapabilityMatch (granted : List CapabilityUri) (required : CapabilityUri) :
    Except UcanError Unit :=
  require (granted.any (·.grants required)) (.capabilityNotGranted required.display)

@[simp] theorem grants_self (uri : CapabilityUri) : uri.grants uri = true := by
  have hcontext : CapabilityUri.contextGrants uri.contextId uri.contextId = true := by
    cases uri.contextId <;> simp [CapabilityUri.contextGrants]
  simp [CapabilityUri.grants, hcontext]

/-- What a capability grants, everything above it grants. -/
theorem grants_trans {parent child required : CapabilityUri} (h : parent.grants child = true)
    (h' : child.grants required = true) : parent.grants required = true := by
  have hcontext : ∀ p c r, CapabilityUri.contextGrants p c = true →
      CapabilityUri.contextGrants c r = true → CapabilityUri.contextGrants p r = true := by
    intro p c r hpc hcr
    cases p with
    | none => rfl
    | some granted =>
      cases c with
      | none => cases hpc
      | some middle =>
        -- A specific context grants only itself, so all three are the same.
        have hmiddle : granted = middle := by simpa [CapabilityUri.contextGrants] using hpc
        rw [hmiddle]
        exact hcr
  simp only [CapabilityUri.grants, Bool.and_eq_true, Bool.or_eq_true, decide_eq_true_eq] at h h' ⊢
  refine ⟨⟨h.1.1.trans h'.1.1, ?_⟩, hcontext _ _ _ h.2 h'.2⟩
  rcases h.1.2 with hany | hsame
  · exact Or.inl hany
  · rw [hsame]
    exact h'.1.2

theorem grants_isOutletStem {parent child : CapabilityUri} (h : parent.grants child = true)
    (hstem : child.isOutletStem = true) : parent.isOutletStem = true := by
  simp only [CapabilityUri.grants, Bool.and_eq_true, decide_eq_true_eq] at h
  unfold CapabilityUri.isOutletStem at hstem ⊢
  rw [h.1.1]
  exact hstem

example : CapabilityUri.fromStr "scp:ctx:*/outlet_call:calc:v2" =
    .ok ⟨none, "outlet_call", "calc:v2"⟩ := by decide +kernel

end ScpCore.Ucan
