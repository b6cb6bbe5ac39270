import ScpCore.UcanChain

/-! Validation of a presented UCAN token: the checks in their order, and what an
accepted token says of every path of its proof tree. -/

namespace ScpCore.Ucan

open Caveats

inductive SigningKeyId
  | active | agent
  deriving DecidableEq

def SigningKeyId.fromFragment (fragment : String) : Option SigningKeyId :=
  if fragment = "#active" then some .active
  else if fragment = "#agent" then some .agent
  else none

inductive ActionCategory
  | categoryA | categoryB
  deriving DecidableEq

def categoryAResources : List String :=
  ["did_document", "verification_method", "identity", "pre_rotation", "service", "relay_config",
    "did_migration", "key_management"]

def classifyAction (resource : String) : ActionCategory :=
  if resource ∈ categoryAResources then .categoryA else .categoryB

def enforceUcanCategoryA (token : UcanToken) (grantedCaps : List CapabilityUri) :
    Except UcanError Unit := do
  let signingKeyId ← okOr (SigningKeyId.fromFragment token.header.kidOrActive)
    (.malformedToken ("unrecognized signing key ID (kid): " ++ token.header.kidOrActive))
  if signingKeyId ≠ .agent then pure ()
  else checkEach (fun cap => require (classifyAction cap.resource ≠ .categoryA)
    (.categoryAViolation cap.capabilityName token.header.kidOrActive)) grantedCaps

def verifyRootIssuer (rootIssuer contextCreatorDid : String) : Except UcanError Unit :=
  require (rootIssuer = contextCreatorDid) (.invalidIssuer contextCreatorDid rootIssuer)

def verifyAudience (token : UcanToken) (presentingAgentDid : String) : Except UcanError Unit :=
  require (token.payload.aud = presentingAgentDid)
    (.audienceMismatch presentingAgentDid token.payload.aud)

section Pipeline
variable {Key : Type} (ctx : ValidationContext Key)

def verifyLeafOutletStemConsistency (token : UcanToken) : Except UcanError Unit := do
  let isOutlet ← attSetHasOutletStem token.payload.att
  if isOutlet then do
    let inferred ← classifyOutletStemFamily token
    requireStemKind inferred ((ctx.resolveCaveats token).bind (·.originKind))
  else pure ()

def validateUcan (token : UcanToken) (requiredCapability : CapabilityUri) :
    Except UcanError Unit := do
  token.header.validate
  verifySignature ctx token
  let rootIssuer ← verifyDelegationChain ctx token
  verifyRootIssuer rootIssuer ctx.contextCreatorDid
  verifyAudience token ctx.presentingAgentDid
  validateKeyScope token
  let grantedCaps ← parseGrantedCaps token
  checkCapabilityMatch grantedCaps requiredCapability
  enforceUcanCategoryA token grantedCaps
  verifyLeafOutletStemConsistency ctx token
  verifyCeilingCompliance grantedCaps ctx.ceiling
  ctx.checkAndRecord token.payload.nnc token.payload.exp
  let revocationCid := ctx.computeRevocationCid token.encoded
  require (!ctx.isRevoked revocationCid) (.tokenRevoked revocationCid)
  (verifyExpiry ctx token).mapError .expiry
  (ctx.resolveCaveats token).elim (.ok ()) (fun caveats =>
    (verifyCaveatTimeBox caveats ctx.now).mapError .caveatTimeBoxViolation)

variable {ctx} {token : UcanToken} {requiredCapability : CapabilityUri}

/-- The checks an accepted token has passed, as far as they bear on authority. -/
structure Accepted (ctx : ValidationContext Key) (token : UcanToken)
    (requiredCapability : CapabilityUri) (caps : List CapabilityUri) : Prop where
  signed : verifySignature ctx token = .ok ()
  chain : verifyDelegationChain ctx token = .ok ctx.contextCreatorDid
  audience : token.payload.aud = ctx.presentingAgentDid
  parsed : parseGrantedCaps token = .ok caps
  granted : checkCapabilityMatch caps requiredCapability = .ok ()
  categoryA : enforceUcanCategoryA token caps = .ok ()
  ceiling : verifyCeilingCompliance caps ctx.ceiling = .ok ()
  unrevoked : ctx.isRevoked (ctx.computeRevocationCid token.encoded) = false
  timely : verifyExpiry ctx token = .ok ()

theorem validateUcan_ok (h : validateUcan ctx token requiredCapability = .ok ()) :
    ∃ caps, Accepted ctx token requiredCapability caps := by
  simp only [validateUcan, bind_ok_iff, exists_unit_iff, mapError_ok_iff] at h
  obtain ⟨_, hsigned, root, hchain, hroot, haud, _, caps, hcaps, hmatch, hcat, _, hceiling, _,
    hrevoked, htime, _⟩ := h
  have hcreator : root = ctx.contextCreatorDid := by simpa [verifyRootIssuer] using hroot
  have haudience : token.payload.aud = ctx.presentingAgentDid := by
    simpa [verifyAudience] using haud
  rw [hcreator] at hchain
  exact ⟨caps, hsigned, hchain, haudience, hcaps, hmatch, hcat, hceiling, by simpa using hrevoked,
    htime⟩

/-- The signature is one of the issuer's key that the header names. -/
def SignedByIssuer (ctx : ValidationContext Key) (token : UcanToken) : Prop :=
  ∃ key text, issuerKey ctx token = .ok key ∧ beforeLast '.' token.encoded.toList = some text ∧
    ctx.verifyEd25519Signature key text token.signature = true

/-- The clock stands between `nbf` and `exp`, give or take the tolerance. -/
def Timely (ctx : ValidationContext Key) (token : UcanToken) : Prop :=
  ctx.now < token.payload.exp+ctx.clockSkewToleranceSecs ∧
    ∀ nbf, token.payload.nbf = some nbf → nbf ≤ ctx.now+ctx.clockSkewToleranceSecs

/-- Some attestation of the token grants the capability. -/
def Grants (token : UcanToken) (cap : CapabilityUri) : Prop :=
  ∃ att ∈ token.payload.att, ∃ uri, CapabilityUri.fromStr att.with_ = .ok uri ∧
    uri.grants cap = true

theorem signedByIssuer_of_verify (h : verifySignature ctx token = .ok ()) :
    SignedByIssuer ctx token := by
  simp only [verifySignature, bind_ok_iff, okOr_ok_iff, require_ok_iff] at h
  obtain ⟨key, hkey, text, htext, hverifies⟩ := h
  exact ⟨key, text, hkey, htext, hverifies⟩

theorem timely_of_verify (h : verifyExpiry ctx token = .ok ())
    (hfit : token.payload.exp+ctx.clockSkewToleranceSecs < 2^64) : Timely ctx token := by
  simp only [verifyExpiry, bind_ok_iff, exists_unit_iff, require_ok_iff, decide_eq_true_eq] at h
  obtain ⟨_, hexp, _, hnbf⟩ := h
  rw [Nat.mod_eq_of_lt hfit] at hexp
  refine ⟨hexp, ?_⟩
  intro nbf hsome
  rw [hsome] at hnbf
  simp only [Option.elim, require_ok_iff, decide_eq_true_eq] at hnbf
  omega

/-- What the edge check says of the capabilities. -/
theorem grants_of_edge {child parent : UcanToken} {cap : CapabilityUri}
    (h : verifyEdgeAttenuation ctx child parent = .ok ()) (hcap : Grants child cap) :
    Grants parent cap := by
  simp only [verifyEdgeAttenuation, bind_ok_iff, exists_unit_iff] at h
  obtain ⟨parentCaps, hparse, hsubset, _⟩ := h
  obtain ⟨att, hatt, uri, huri, hgrants⟩ := hcap
  have hgranted : ∃ p ∈ parentCaps, p.grants uri = true := by
    have hthis := (checkEach_ok_iff _ _ _).mp hsubset att hatt
    simpa [Attenuation.parse, huri, Except.mapError, bind_ok_iff] using hthis
  obtain ⟨p, hp, hpuri⟩ := hgranted
  obtain ⟨att', hatt', hp'⟩ := mapEach_mem_right hparse hp
  rw [Attenuation.parse, mapError_ok_iff] at hp'
  exact ⟨att', hatt', p, hp', grants_trans hpuri hgrants⟩

namespace Accepted
variable {caps : List CapabilityUri} (h : Accepted ctx token requiredCapability caps)

include h

theorem walk : ∃ seen', verifyChainRecursive ctx (maxChainDepth+1) token [token.payload.iss] =
    .ok (ctx.contextCreatorDid, seen') :=
  verifyDelegationChain_ok_iff.mp h.chain

theorem goodProof {child parent : UcanToken} (hchild : Ancestor ctx token child)
    (hproof : IsProof ctx child parent) : GoodProof ctx child parent := by
  obtain ⟨seen', hwalk⟩ := h.walk
  exact goodProof_of_walk hwalk hchild hproof

theorem withinDepth : WithinDepth ctx maxChainDepth token := by
  obtain ⟨seen', hwalk⟩ := h.walk
  exact withinDepth_of_walk hwalk

theorem grants_required : Grants token requiredCapability := by
  have hany : ∃ uri ∈ caps, uri.grants requiredCapability = true := by
    simpa [checkCapabilityMatch] using h.granted
  obtain ⟨uri, huri, hgrants⟩ := hany
  obtain ⟨att, hatt, hparse⟩ := mapEach_mem_right h.parsed huri
  rw [Attenuation.parse, mapError_ok_iff] at hparse
  exact ⟨att, hatt, uri, hparse, hgrants⟩

/-- Each attestation is a capability inside the ceiling. -/
theorem within_ceiling {att : Attenuation} (hatt : att ∈ token.payload.att) :
    ∃ cap, CapabilityUri.fromStr att.with_ = .ok cap ∧ cap.isWithinCeiling ctx.ceiling = true := by
  obtain ⟨cap, hcap, hparse⟩ := mapEach_mem_left h.parsed hatt
  rw [Attenuation.parse, mapError_ok_iff] at hparse
  refine ⟨cap, hparse, ?_⟩
  simpa using (checkEach_ok_iff _ _ _).mp h.ceiling cap hcap

/-- A token of the proof tree passes the checks that the presented one has passed. -/
theorem ancestor_checked {t : UcanToken} (ht : Ancestor ctx token t) :
    verifySignature ctx t = .ok () ∧ verifyExpiry ctx t = .ok () ∧
      ctx.isRevoked (ctx.computeRevocationCid t.encoded) = false := by
  rcases Relation.ReflTransGen.cases_tail ht with heq | ⟨child, hchild, hproof⟩
  · rw [heq]
    exact ⟨h.signed, h.timely, h.unrevoked⟩
  · have hgood := h.goodProof hchild hproof
    exact ⟨hgood.signed, hgood.timely, hgood.unrevoked⟩

theorem ancestor_grants {t : UcanToken} (ht : Ancestor ctx token t) {cap : CapabilityUri}
    (hcap : Grants token cap) : Grants t cap := by
  induction ht with
  | refl => exact hcap
  | tail hbelow hproof ih => exact grants_of_edge (h.goodProof hbelow hproof).attenuates ih

end Accepted

/-- No sum of clock values leaves the word. -/
def ClockSumsFit (ctx : ValidationContext Key) (token : UcanToken) : Prop :=
  ctx.now+maxExpirySecs < 2^64 ∧
    ∀ t, Ancestor ctx token t → t.payload.exp+ctx.clockSkewToleranceSecs < 2^64

/-- What a path of the proof tree has to show. -/
structure AuthorizedPath (ctx : ValidationContext Key) (path : List UcanToken) : Prop where
  edges : path.length ≤ maxChainDepth+1
  signed : ∀ t ∈ path, SignedByIssuer ctx t
  unrevoked : ∀ t ∈ path, ctx.isRevoked (ctx.computeRevocationCid t.encoded) = false
  timely : ∀ t ∈ path, Timely ctx t
  linked : path.IsChain (fun child parent => parent.payload.aud = child.payload.iss)
  root : (issuers path).getLast? = some ctx.contextCreatorDid
  distinct : (issuers path).Nodup

theorem Accepted.authorizedPath {caps : List CapabilityUri} {path : List UcanToken}
    (h : Accepted ctx token requiredCapability caps) (hclock : ClockSumsFit ctx token)
    (hpath : ProofPath ctx token path) : AuthorizedPath ctx path := by
  obtain ⟨seen', hwalk⟩ := h.walk
  have hwalked := walkedPath hwalk hpath
  refine ⟨h.withinDepth.length_le hpath, ?_, ?_, ?_, ?_, hwalked.root, ?_⟩
  · intro t ht
    exact signedByIssuer_of_verify (h.ancestor_checked (hpath.ancestor ht)).1
  · intro t ht
    exact (h.ancestor_checked (hpath.ancestor ht)).2.2
  · intro t ht
    have hanc := hpath.ancestor ht
    exact timely_of_verify (h.ancestor_checked hanc).2.1 (hclock.2 t hanc)
  · exact hwalked.edges.imp (fun _ _ hcheck => (verifyParent_ok_iff.mp hcheck).links)
  · -- The walk starts with the issuer of the token seen, so no issuer above is that one.
    obtain ⟨rest, hhead⟩ := hpath.head
    subst hhead
    apply List.nodup_cons.mpr
    refine ⟨?_, hwalked.distinct⟩
    intro hmem
    exact hwalked.fresh _ hmem List.mem_cons_self

/-- An accepted token is authorized along every path of its proof tree. -/
theorem validateUcan_authorizes (h : validateUcan ctx token requiredCapability = .ok ())
    (hclock : ClockSumsFit ctx token) :
    WithinDepth ctx maxChainDepth token ∧ token.payload.aud = ctx.presentingAgentDid ∧
      ∀ path, ProofPath ctx token path → AuthorizedPath ctx path ∧
        (∀ t ∈ path, Grants t requiredCapability) ∧
        ∀ att ∈ token.payload.att, ∃ cap, CapabilityUri.fromStr att.with_ = .ok cap ∧
          cap.isWithinCeiling ctx.ceiling = true ∧ ∀ t ∈ path, Grants t cap := by
  obtain ⟨caps, hacc⟩ := validateUcan_ok h
  refine ⟨hacc.withinDepth, hacc.audience, ?_⟩
  intro path hpath
  refine ⟨hacc.authorizedPath hclock hpath, ?_, ?_⟩
  · intro t ht
    exact hacc.ancestor_grants (hpath.ancestor ht) hacc.grants_required
  · intro att hatt
    obtain ⟨cap, hcap, hceiling⟩ := hacc.within_ceiling hatt
    refine ⟨cap, hcap, hceiling, ?_⟩
    intro t ht
    apply hacc.ancestor_grants (hpath.ancestor ht)
    exact ⟨att, hatt, cap, hcap, grants_self cap⟩

/-- What the creator grants Alice, she passes on to Bob. -/
theorem delegated_authorized :
    WithinDepth (sampleContext [firstGrant, secondGrant]) maxChainDepth (delegated ["h.1.s"]) ∧
      ∀ path, ProofPath (sampleContext [firstGrant, secondGrant]) (delegated ["h.1.s"]) path →
        AuthorizedPath (sampleContext [firstGrant, secondGrant]) path := by
  have hclock : ClockSumsFit (sampleContext [firstGrant, secondGrant]) (delegated ["h.1.s"]) := by
    refine ⟨by decide, ?_⟩
    intro t ht
    have hexp : ∀ t ∈ [delegated ["h.1.s"], firstGrant, secondGrant],
        t.payload.exp+300 < 2^64 := by decide
    apply hexp
    rcases sampleContext_ancestor ht with ht | ht
    · rw [ht]
      exact List.mem_cons_self
    · exact List.mem_cons_of_mem _ ht
  have hauth := validateUcan_authorizes
    (show validateUcan (sampleContext [firstGrant, secondGrant]) (delegated ["h.1.s"])
      ⟨some "c1", "messages", "write"⟩ = .ok () by decide +kernel) hclock
  exact ⟨hauth.1, fun path hpath => (hauth.2.2 path hpath).1⟩

/-- An attestation of the token is of a Category A resource. -/
def CarriesCategoryA (token : UcanToken) : Prop :=
  ∃ att ∈ token.payload.att, ∃ cap, CapabilityUri.fromStr att.with_ = .ok cap ∧
    classifyAction cap.resource = .categoryA

/-- The Category A gate, on a token of any place in the tree. -/
def categoryAGate (token : UcanToken) : Except UcanError Unit := do
  let grantedCaps ← parseGrantedCaps token
  enforceUcanCategoryA token grantedCaps

/-- A refusal of the loop is the refusal of an entry. -/
theorem checkEach_error {α ε : Type} {f : α → Except ε Unit} {as : List α} {e : ε}
    (h : checkEach f as = .error e) : ∃ a ∈ as, f a = .error e := by
  induction as with
  | nil => cases h
  | cons a as ih =>
    rcases (bind_error_iff _ _ _).mp h with ha | ⟨_, _, hrest⟩
    · exact ⟨a, List.mem_cons_self, ha⟩
    · obtain ⟨a', ha', he⟩ := ih hrest
      exact ⟨a', List.mem_cons_of_mem _ ha', he⟩

theorem kidOrActive_eq_agent_iff (header : UcanHeader) :
    header.kidOrActive = "#agent" ↔ header.kid = some "#agent" := by
  unfold UcanHeader.kidOrActive
  cases header.kid <;> simp

theorem enforceUcanCategoryA_agent {caps : List CapabilityUri}
    (hkid : token.header.kid = some "#agent") :
    enforceUcanCategoryA token caps = checkEach (fun cap => require
      (classifyAction cap.resource ≠ .categoryA)
      (.categoryAViolation cap.capabilityName "#agent")) caps := by
  have hagent := (kidOrActive_eq_agent_iff token.header).mpr hkid
  simp only [enforceUcanCategoryA, hagent]
  rfl

theorem enforceUcanCategoryA_not_agent {caps : List CapabilityUri} {action kid : String}
    (hkid : token.header.kid ≠ some "#agent") :
    enforceUcanCategoryA token caps ≠ .error (.categoryAViolation action kid) := by
  intro h
  have hnot : token.header.kidOrActive ≠ "#agent" :=
    fun hagent => hkid ((kidOrActive_eq_agent_iff token.header).mp hagent)
  -- Only the keys that the fragment decoder knows get past the first step.
  by_cases hactive : token.header.kidOrActive = "#active"
  · simp [enforceUcanCategoryA, hactive, SigningKeyId.fromFragment, okOr, bind, Except.bind, pure,
      Except.pure] at h
  · simp [enforceUcanCategoryA, hactive, hnot, SigningKeyId.fromFragment, okOr, bind,
      Except.bind] at h

theorem enforceUcanCategoryA_refuses_iff {caps : List CapabilityUri} :
    (∃ action kid, enforceUcanCategoryA token caps = .error (.categoryAViolation action kid)) ↔
      token.header.kid = some "#agent" ∧
        ∃ cap ∈ caps, classifyAction cap.resource = .categoryA := by
  by_cases hkid : token.header.kid = some "#agent"
  · rw [enforceUcanCategoryA_agent hkid]
    constructor
    · intro h
      obtain ⟨action, kid, herror⟩ := h
      obtain ⟨cap, hcap, he⟩ := checkEach_error herror
      have hcategory := ((require_error_iff _ _ _).mp he).1
      exact ⟨hkid, cap, hcap, by simpa using hcategory⟩
    · intro h
      obtain ⟨_, cap, hcap, hcategory⟩ := h
      cases hresult : checkEach (fun cap => require (classifyAction cap.resource ≠ .categoryA)
          (UcanError.categoryAViolation cap.capabilityName "#agent")) caps with
      | ok u =>
        have hpass := (checkEach_ok_iff _ _ _).mp hresult cap hcap
        rw [require_ok_iff, decide_eq_true_eq] at hpass
        exact absurd hcategory hpass
      | error e =>
        obtain ⟨cap', _, he⟩ := checkEach_error hresult
        exact ⟨_, _, by rw [((require_error_iff _ _ _).mp he).2]⟩
  · constructor
    · intro h
      obtain ⟨action, kid, herror⟩ := h
      exact absurd herror (enforceUcanCategoryA_not_agent hkid)
    · intro h
      exact absurd h.1 hkid

/-- On a token whose attestations parse, the gate refuses an agent key's attestation of a
Category A resource, and only that. -/
theorem categoryAGate_refuses_iff {caps : List CapabilityUri}
    (hparse : parseGrantedCaps token = .ok caps) :
    (∃ action kid, categoryAGate token = .error (.categoryAViolation action kid)) ↔
      token.header.kid = some "#agent" ∧ CarriesCategoryA token := by
  have hgate : categoryAGate token = enforceUcanCategoryA token caps := by
    rw [categoryAGate, hparse]
    rfl
  have hcarries : CarriesCategoryA token ↔
      ∃ cap ∈ caps, classifyAction cap.resource = .categoryA := by
    constructor
    · intro h
      obtain ⟨att, hatt, cap, hcap, hcategory⟩ := h
      obtain ⟨cap', hcap', hparse'⟩ := mapEach_mem_left hparse hatt
      rw [Attenuation.parse, mapError_ok_iff, hcap] at hparse'
      cases hparse'
      exact ⟨cap, hcap', hcategory⟩
    · intro h
      obtain ⟨cap, hcap, hcategory⟩ := h
      obtain ⟨att, hatt, hparse'⟩ := mapEach_mem_right hparse hcap
      rw [Attenuation.parse, mapError_ok_iff] at hparse'
      exact ⟨att, hatt, cap, hparse', hcategory⟩
  rw [hgate, hcarries]
  exact enforceUcanCategoryA_refuses_iff

/-- The edge check reads every attestation of a proof. -/
theorem parse_of_edge {child parent : UcanToken}
    (h : verifyEdgeAttenuation ctx child parent = .ok ()) :
    ∃ caps, parseGrantedCaps parent = .ok caps := by
  simp only [verifyEdgeAttenuation, bind_ok_iff] at h
  obtain ⟨caps, hparse, _⟩ := h
  refine ⟨caps, ?_⟩
  simp only [parseGrantedCaps, Attenuation.parse, mapEach_ok_iff, mapError_ok_iff] at hparse ⊢
  exact hparse

/-- Under an accepted token no agent key conveys Category A authority exactly when no
proof above it is one that the gate, run on that proof, would refuse. -/
theorem validateUcan_agent_categoryA_iff
    (h : validateUcan ctx token requiredCapability = .ok ()) :
    (∀ t, Ancestor ctx token t → t.header.kid = some "#agent" → ¬ CarriesCategoryA t) ↔
      ∀ child parent, Ancestor ctx token child → IsProof ctx child parent →
        ¬ ∃ action kid, categoryAGate parent = .error (.categoryAViolation action kid) := by
  obtain ⟨caps, hacc⟩ := validateUcan_ok h
  have hproof : ∀ child parent, Ancestor ctx token child → IsProof ctx child parent →
      ((∃ action kid, categoryAGate parent = .error (.categoryAViolation action kid)) ↔
        parent.header.kid = some "#agent" ∧ CarriesCategoryA parent) := by
    intro child parent hchild hproof
    obtain ⟨caps', hparse⟩ := parse_of_edge (hacc.goodProof hchild hproof).attenuates
    exact categoryAGate_refuses_iff hparse
  constructor
  · intro hall child parent hchild hp hrefused
    obtain ⟨hkid, hcarries⟩ := (hproof child parent hchild hp).mp hrefused
    exact hall parent (hchild.tail hp) hkid hcarries
  · intro hgates t ht hkid hcarries
    rcases Relation.ReflTransGen.cases_tail ht with heq | ⟨child, hchild, hp⟩
    · -- The presented token has passed the gate itself.
      rw [heq] at hkid hcarries
      obtain ⟨action, kid, hrefused⟩ :=
        (categoryAGate_refuses_iff hacc.parsed).mpr ⟨hkid, hcarries⟩
      rw [categoryAGate, hacc.parsed] at hrefused
      have hpassed := hacc.categoryA.symm.trans hrefused
      cases hpassed
    · exact hgates child t hchild hp ((hproof child t hchild hp).mpr ⟨hkid, hcarries⟩)

/-- No key of the grants to Alice is an agent's. -/
theorem delegated_no_agent_categoryA :
    validateUcan (sampleContext [firstGrant, secondGrant]) (delegated ["h.1.s"])
      ⟨some "c1", "messages", "write"⟩ = .ok () ∧
    ∀ t, Ancestor (sampleContext [firstGrant, secondGrant]) (delegated ["h.1.s"]) t →
      t.header.kid = some "#agent" → ¬ CarriesCategoryA t := by
  have haccepted : validateUcan (sampleContext [firstGrant, secondGrant]) (delegated ["h.1.s"])
      ⟨some "c1", "messages", "write"⟩ = .ok () := by decide +kernel
  refine ⟨haccepted, (validateUcan_agent_categoryA_iff haccepted).mpr ?_⟩
  intro child parent hchild hproof hrefused
  obtain ⟨action, kid, hrefused⟩ := hrefused
  have hgates : ∀ t ∈ [delegated ["h.1.s"], firstGrant, secondGrant],
      categoryAGate t = .ok () := by decide +kernel
  have hpassed : categoryAGate parent = .ok () := by
    apply hgates
    rcases sampleContext_ancestor (hchild.tail hproof) with ht | ht
    · rw [ht]
      exact List.mem_cons_self
    · exact List.mem_cons_of_mem _ ht
  rw [hpassed] at hrefused
  cases hrefused

/-- A grant over DID documents that the creator's agent key has signed. -/
def agentGrant : UcanToken :=
  { sampleToken "root" "alice" "h.4.s" ["scp:ctx:*/did_document:*"] [] with
    header := ⟨"EdDSA", "JWT", "0.10.0", some "#agent"⟩ }

def documentUpdate : UcanToken :=
  sampleToken "alice" "bob" "h.5.s" ["scp:ctx:c1/did_document:update"] ["h.4.s"]

/-- An agent key's grant conveys Category A authority once another key passes it on. -/
theorem agent_conveys_categoryA :
    validateUcan (sampleContext [agentGrant]) documentUpdate
        ⟨some "c1", "did_document", "update"⟩ = .ok () ∧
      Ancestor (sampleContext [agentGrant]) documentUpdate agentGrant ∧
      agentGrant.header.kid = some "#agent" ∧ CarriesCategoryA agentGrant := by
  refine ⟨by decide +kernel, .single ⟨"h.4.s", by decide, by decide +kernel⟩, rfl, ?_⟩
  exact ⟨⟨"scp:ctx:*/did_document:*", "*"⟩, by decide, ⟨none, "did_document", "*"⟩,
    by decide +kernel, by decide⟩

/-- The token has an outlet capability. -/
def HasOutletStem (token : UcanToken) : Prop :=
  ∃ att ∈ token.payload.att, ∃ uri, CapabilityUri.fromStr att.with_ = .ok uri ∧
    uri.isOutletStem = true

theorem attSetHasOutletStem_of_mem {att : List Attenuation} {b : Bool}
    (h : attSetHasOutletStem att = .ok b) {a : Attenuation} (ha : a ∈ att) {uri : CapabilityUri}
    (huri : CapabilityUri.fromStr a.with_ = .ok uri) (hstem : uri.isOutletStem = true) :
    b = true := by
  induction att with
  | nil => cases ha
  | cons a' att ih =>
    simp only [attSetHasOutletStem, bind_ok_iff, Attenuation.parse, mapError_ok_iff] at h
    obtain ⟨uri', huri', hrest⟩ := h
    by_cases hstem' : uri'.isOutletStem = true
    · rw [if_pos hstem', pure_ok_iff] at hrest
      exact hrest.symm
    · rw [if_neg hstem'] at hrest
      rcases List.mem_cons.mp ha with ha | ha
      · rw [← ha, huri] at huri'
        cases huri'
        exact absurd hstem hstem'
      · exact ih hrest ha

/-- An outlet capability of the child stands in the parent too. -/
theorem hasOutletStem_of_edge {child parent : UcanToken}
    (h : verifyEdgeAttenuation ctx child parent = .ok ()) (hstem : HasOutletStem child) :
    HasOutletStem parent := by
  obtain ⟨att, hatt, uri, huri, hout⟩ := hstem
  obtain ⟨att', hatt', uri', huri', hgrants⟩ :=
    grants_of_edge h ⟨att, hatt, uri, huri, grants_self uri⟩
  exact ⟨att', hatt', uri', huri', grants_isOutletStem hgrants hout⟩

/-- An outlet child of a parent with caveats has caveats, and tighter ones. -/
theorem tighter_of_edge {child parent : UcanToken}
    (h : verifyEdgeAttenuation ctx child parent = .ok ()) (hstem : HasOutletStem child)
    {p : InvocationCaveats} (hp : ctx.resolveCaveats parent = some p) :
    ∃ c, ctx.resolveCaveats child = some c ∧ Tighter p c := by
  simp only [verifyEdgeAttenuation, bind_ok_iff, exists_unit_iff] at h
  obtain ⟨_, _, _, outlet, houtlet, hcaveats⟩ := h
  obtain ⟨att, hatt, uri, huri, hout⟩ := hstem
  rw [hp, attSetHasOutletStem_of_mem houtlet hatt huri hout] at hcaveats
  cases hc : ctx.resolveCaveats child with
  | none =>
    rw [hc] at hcaveats
    cases hcaveats
  | some c =>
    rw [hc] at hcaveats
    simp only [verifyEdgeCaveats, bind_ok_iff, exists_unit_iff, mapError_ok_iff] at hcaveats
    exact ⟨c, rfl, (narrow_ok hcaveats.1).tighter⟩

/-- The caveats of an accepted outlet token bind at least as tightly as those of every
token above it. -/
theorem validateUcan_caveats_tighter (h : validateUcan ctx token requiredCapability = .ok ())
    (hstem : HasOutletStem token) {ancestor : UcanToken} (hanc : Ancestor ctx token ancestor)
    {a : InvocationCaveats} (ha : ctx.resolveCaveats ancestor = some a) :
    ∃ c, ctx.resolveCaveats token = some c ∧ Tighter a c := by
  obtain ⟨caps, hacc⟩ := validateUcan_ok h
  have hgood : ∀ child parent, Ancestor ctx token child → IsProof ctx child parent →
      verifyEdgeAttenuation ctx child parent = .ok () :=
    fun child parent hchild hproof => (hacc.goodProof hchild hproof).attenuates
  clear h hacc
  -- Down from the ancestor: each edge below it passes the caveats on.
  induction hanc using Relation.ReflTransGen.head_induction_on with
  | refl => exact ⟨a, ha, .refl a⟩
  | head hproof _ ih =>
    have hedge := hgood _ _ .refl hproof
    obtain ⟨p, hp, hap⟩ := ih (hasOutletStem_of_edge hedge hstem)
      (fun child parent hchild => hgood child parent (.head hproof hchild))
    obtain ⟨c, hc, hpc⟩ := tighter_of_edge hedge hstem hp
    exact ⟨c, hc, hap.trans hpc⟩

/-- A grant of calls, at most ten of them. -/
def outletGrant : UcanToken :=
  let token := sampleToken "root" "alice" "h.6.s" ["scp:ctx:*/outlet_call:*"] []
  { token with payload := { token.payload with
      nb := some { InvocationCaveats.empty with maxCalls := some 10, originKind := some .action } } }

/-- Alice passes five of the calls on. -/
def outletCall : UcanToken :=
  let token := sampleToken "alice" "bob" "h.7.s" ["scp:ctx:c1/outlet_call:pay"] ["h.6.s"]
  { token with payload := { token.payload with
      nb := some { InvocationCaveats.empty with maxCalls := some 5, originKind := some .action } } }

theorem outletCall_tighter :
    ∃ c, outletCall.payload.nb = some c ∧
      Tighter { InvocationCaveats.empty with maxCalls := some 10, originKind := some .action } c := by
  refine validateUcan_caveats_tighter
    (show validateUcan (sampleContext [outletGrant]) outletCall
      ⟨some "c1", "outlet_call", "pay"⟩ = .ok () by decide +kernel) ?_
    (.single ⟨"h.6.s", by decide, by decide +kernel⟩ :
      Ancestor (sampleContext [outletGrant]) outletCall outletGrant) rfl
  exact ⟨⟨"scp:ctx:c1/outlet_call:pay", "*"⟩, by decide, ⟨some "c1", "outlet_call", "pay"⟩,
    by decide +kernel, by decide⟩

end Pipeline

end ScpCore.Ucan
