import ScpCore.UcanCapability

/-! The delegation chain of a UCAN token. A token names its proofs by CID; the walk
resolves them up to tokens without proofs, checks each edge, and keeps one set of the
issuers it has met. -/

namespace ScpCore.Ucan

open Caveats Schema

structure UcanHeader where
  alg : String
  typ : String
  ucv : String
  kid : Option String
  deriving DecidableEq

def UcanHeader.validate (header : UcanHeader) : Except UcanError Unit := do
  require (header.alg = "EdDSA") (.unsupportedAlgorithm header.alg)
  require (header.ucv = "0.10.0") (.unsupportedVersion header.ucv)

structure Attenuation where
  with_ : String
  can : String
  deriving DecidableEq

structure UcanPayload where
  iss : String
  aud : String
  exp : ℕ
  nbf : Option ℕ
  nnc : String
  att : List Attenuation
  prf : List String
  fct : Option Json
  nb : Option InvocationCaveats
  deriving DecidableEq

structure UcanToken where
  header : UcanHeader
  payload : UcanPayload
  signature : Bytes
  encoded : String
  deriving DecidableEq

def maxChainDepth : ℕ := 32

def maxExpirySecs : ℕ := 24*60*60

/-- What a validation reads from outside the token: the resolvers, the signature
scheme over its `Key`s, the answer of the nonce tracker, the context and the clock. -/
structure ValidationContext (Key : Type) where
  resolvePublicKey : String → Except UcanError Key
  resolvePublicKeyByKid : String → String → Except UcanError Key
  verifyEd25519Signature : Key → List Char → Bytes → Bool
  checkAndRecord : String → ℕ → Except UcanError Unit
  isRevoked : String → Bool
  computeRevocationCid : String → String
  resolveProof : String → Except UcanError UcanToken
  resolveCaveats : UcanToken → Option InvocationCaveats
  ceiling : List String
  contextCreatorDid : String
  presentingAgentDid : String
  clockSkewToleranceSecs : ℕ
  now : ℕ

/-- The signing key a header without one stands for. -/
def UcanHeader.kidOrActive (header : UcanHeader) : String := header.kid.getD "#active"

def extractKeyScope (payload : UcanPayload) : Option String :=
  ((payload.fct.bind Json.asObject).bind (·.lookup "scp_key_scope")).bind Json.asStr

def validateKeyScope (token : UcanToken) : Except UcanError Unit := do
  require (¬ (token.payload.iss = token.payload.aud ∧ extractKeyScope token.payload = none))
    .selfDelegationWithoutKeyScope
  (extractKeyScope token.payload).elim (.ok ()) (fun scope =>
    require (token.header.kidOrActive = scope) (.keyScopeMismatch scope token.header.kidOrActive))

/-- The text before the last separator. -/
def beforeLast (sep : Char) : List Char → Option (List Char)
  | [] => none
  | c :: text => ((beforeLast sep text).map (c :: ·)).or (if c = sep then some [] else none)

section Token
variable {Key : Type} (ctx : ValidationContext Key)

def issuerKey (token : UcanToken) : Except UcanError Key :=
  token.header.kid.elim (ctx.resolvePublicKey token.payload.iss)
    (ctx.resolvePublicKeyByKid token.payload.iss)

def verifySignature (token : UcanToken) : Except UcanError Unit := do
  let pkBytes ← issuerKey ctx token
  let signingInput ← okOr (beforeLast '.' token.encoded.toList)
    (.malformedToken "missing signature segment")
  require (ctx.verifyEd25519Signature pkBytes signingInput token.signature) .signatureInvalid

/-- The two sums of clock values are taken modulo the word size. -/
def verifyExpiry (token : UcanToken) : Except ExpiryError Unit := do
  token.payload.nbf.elim (.ok ()) (fun nbf =>
    require (nbf < token.payload.exp) (.invalidTimeRange nbf token.payload.exp))
  require (ctx.now < (token.payload.exp+ctx.clockSkewToleranceSecs)%2^64) .tokenExpired
  require (token.payload.exp ≤ (ctx.now+maxExpirySecs)%2^64) (.expiryTooFar token.payload.exp)
  token.payload.nbf.elim (.ok ()) (fun nbf =>
    require (nbf-ctx.clockSkewToleranceSecs ≤ ctx.now) .tokenNotYetValid)

end Token

/-- `UcanError` as the text of the URI parser's errors. -/
def uriErrorText : UcanError → String
  | .invalidCapabilityUri reason => "invalid capability URI: " ++ reason
  | _ => ""

/-- The URI of an attestation, with the error its reader gives instead. -/
def Attenuation.parse (refuse : UcanError → UcanError) (att : Attenuation) :
    Except UcanError CapabilityUri :=
  (CapabilityUri.fromStr att.with_).mapError refuse

def parseGrantedCaps (token : UcanToken) : Except UcanError (List CapabilityUri) :=
  mapEach (fun att => att.parse (fun _ =>
    .malformedToken ("unparseable capability URI in attestation: " ++ att.with_)))
    token.payload.att

/-- Stops at the first outlet stem and does not read what follows it. -/
def attSetHasOutletStem : List Attenuation → Except UcanError Bool
  | [] => .ok false
  | a :: att => do
    let uri ← a.parse (fun e => .malformedToken ("unparseable capability URI '" ++ a.with_ ++
      "' while classifying outlet scope: " ++ uriErrorText e))
    if uri.isOutletStem then pure true else attSetHasOutletStem att

/-- The kind of a set that has the stems of queries, or of calls, or both. -/
def stemFamily : Bool → Bool → Except UcanError OutletKind
  | true, false => .ok .query
  | false, true => .ok .action
  | true, true => .error (.caveatAttenuationViolation .originKindMixedStem)
  | false, false => .error (.malformedToken "outlet-edge classifier/stem-family disagreement")

def classifyOutletStemFamily (token : UcanToken) : Except UcanError OutletKind := do
  let uris ← mapEach (fun a => Attenuation.parse (fun e => .malformedToken
    ("unparseable capability URI '" ++ a.with_ ++ "' while classifying outlet stem family: " ++
      uriErrorText e)) a) token.payload.att
  stemFamily (uris.any (·.resource = "outlet_query")) (uris.any (·.resource = "outlet_call"))

/-- A declared kind has to be the one of the stems. -/
def requireStemKind (inferred : OutletKind) (declared : Option OutletKind) :
    Except UcanError Unit :=
  declared.elim (.ok ()) (fun kind => require (kind = inferred)
    (.caveatAttenuationViolation (.originKindMismatch inferred kind)))

def verifyOriginKindMatchesStemFamily (childCaveats : InvocationCaveats)
    (childIsOutletEdge : Bool) (child : UcanToken) : Except UcanError Unit :=
  if childIsOutletEdge then do
    let inferred ← classifyOutletStemFamily child
    requireStemKind inferred childCaveats.originKind
  else .ok ()

/-- The violation for a child that drops the caveats of its parent. -/
def droppedViolation (parentCaveats : InvocationCaveats) : AttenuationViolation :=
  match parentCaveats.narrow InvocationCaveats.empty with
  | .error violation => violation
  | .ok _ => .originKindUnspecified parentCaveats.originKind

/-- Caveats may be missing from a child only where it has no outlet stem. -/
def verifyEdgeCaveats (child : UcanToken) (childIsOutletEdge : Bool) :
    Option InvocationCaveats → Option InvocationCaveats → Except UcanError Unit
  | some parentCaveats, none =>
    require (!childIsOutletEdge) (.caveatAttenuationViolation (droppedViolation parentCaveats))
  | some parentCaveats, some childCaveats => do
    (parentCaveats.narrow childCaveats).mapError .caveatAttenuationViolation
    verifyOriginKindMatchesStemFamily childCaveats childIsOutletEdge child
  | none, some childCaveats => do
    (InvocationCaveats.empty.narrow childCaveats).mapError .caveatAttenuationViolation
    verifyOriginKindMatchesStemFamily childCaveats childIsOutletEdge child
  | none, none =>
    require (!childIsOutletEdge) (.caveatAttenuationViolation (.originKindUnspecified none))

section Chain
variable {Key : Type} (ctx : ValidationContext Key)

def verifyEdgeAttenuation (child parent : UcanToken) : Except UcanError Unit := do
  let parentCaps ← mapEach (fun att => Attenuation.parse (fun _ => .malformedToken
    ("unparseable capability URI in parent attestation: " ++ att.with_)) att) parent.payload.att
  checkEach (fun att => do
    let childCap ← Attenuation.parse (fun e => .attenuationViolation (uriErrorText e)) att
    require (parentCaps.any (·.grants childCap)) (.attenuationViolation
      ("child capability '" ++ att.with_ ++ "' not granted by parent"))) child.payload.att
  let childIsOutletEdge ← attSetHasOutletStem child.payload.att
  verifyEdgeCaveats child childIsOutletEdge (ctx.resolveCaveats parent) (ctx.resolveCaveats child)

/-- The checks on a proof of a token, before the proof's own proofs. -/
def verifyParent (token parent : UcanToken) : Except UcanError Unit := do
  require (parent.payload.aud = token.payload.iss)
    (.delegationChainBroken (.audIssMismatch parent.payload.aud token.payload.iss))
  verifyEdgeAttenuation ctx token parent
  validateKeyScope parent
  verifySignature ctx parent
  (verifyExpiry ctx parent).mapError (fun e => .delegationChainBroken (.parentExpiry e))
  require (!ctx.isRevoked (ctx.computeRevocationCid parent.encoded))
    (.delegationChainBroken (.parentRevoked (ctx.computeRevocationCid parent.encoded)))

/-- The roots of all proofs of a token have to be the same. -/
def agreeRoot (rootIssuer : Option String) (foundRoot : String) :
    Except UcanError (Option String) := do
  rootIssuer.elim (.ok ()) (fun existing => require (existing = foundRoot)
    (.delegationChainBroken (.divergentRootIssuers existing foundRoot)))
  pure (some foundRoot)

/-- The walk's result for a token: its root issuer, and the issuers seen by then. -/
abbrev Walk := UcanToken → List String → Except UcanError (String × List String)

/-- One turn of the loop over the proofs; `walk` is the recursive call. -/
def proofStep (walk : Walk) (token : UcanToken) (state : Option String × List String)
    (proofCid : String) : Except UcanError (Option String × List String) := do
  let parent ← ctx.resolveProof proofCid
  require (parent.payload.iss ∉ state.2) (.circularDelegation parent.payload.iss)
  verifyParent ctx token parent
  let (foundRoot, seenIssuers) ← walk parent (parent.payload.iss :: state.2)
  let rootIssuer ← agreeRoot state.1 foundRoot
  pure (rootIssuer, seenIssuers)

/-- `remaining` counts the depth down: it is `maxChainDepth+1` at the presented token
and zero one level past the maximum. -/
def verifyChainRecursive : ℕ → Walk
  | 0, _, _ => .error (.delegationChainBroken .exceedsMaximumDepth)
  | remaining + 1, token, seenIssuers =>
    if token.payload.prf = [] then .ok (token.payload.iss, seenIssuers)
    else do
      let (rootIssuer, seenIssuers) ←
        token.payload.prf.foldlM (proofStep ctx (verifyChainRecursive remaining) token)
          (none, seenIssuers)
      let rootIssuer ← okOr rootIssuer (.delegationChainBroken .noRootIssuer)
      pure (rootIssuer, seenIssuers)

def verifyDelegationChain (token : UcanToken) : Except UcanError String :=
  if token.payload.prf = [] then .ok token.payload.iss
  else do
    let (rootIssuer, _) ← verifyChainRecursive ctx (maxChainDepth+1) token [token.payload.iss]
    pure rootIssuer

/-- `parent` is a proof of `token`. -/
def IsProof (token parent : UcanToken) : Prop :=
  ∃ cid ∈ token.payload.prf, ctx.resolveProof cid = .ok parent

/-- `ancestor` is the token, or stands above it in the proof tree. -/
def Ancestor (token ancestor : UcanToken) : Prop :=
  Relation.ReflTransGen (IsProof ctx) token ancestor

/-- A path from a token up to one without proofs. -/
inductive ProofPath : UcanToken → List UcanToken → Prop
  | root {token : UcanToken} (h : token.payload.prf = []) : ProofPath token [token]
  | step {token parent : UcanToken} {path : List UcanToken} (h : IsProof ctx token parent)
      (hpath : ProofPath parent path) : ProofPath token (token :: path)

/-- All proofs resolve, and no path has more than the given number of edges. -/
def WithinDepth : ℕ → UcanToken → Prop
  | 0, token => token.payload.prf = []
  | n + 1, token => ∀ cid ∈ token.payload.prf, ∃ parent, ctx.resolveProof cid = .ok parent ∧
      WithinDepth n parent

def issuers (path : List UcanToken) : List String := path.map (·.payload.iss)

variable {ctx} {token parent : UcanToken} {path : List UcanToken}

theorem ProofPath.head (h : ProofPath ctx token path) : ∃ rest, path = token :: rest := by
  cases h with
  | root => exact ⟨[], rfl⟩
  | step _ _ => exact ⟨_, rfl⟩

theorem not_isProof_of_root (h : token.payload.prf = []) : ¬ IsProof ctx token parent := by
  intro hproof
  obtain ⟨cid, hcid, _⟩ := hproof
  rw [h] at hcid
  cases hcid

theorem WithinDepth.exists_path {n : ℕ} (h : WithinDepth ctx n token) :
    ∃ path, ProofPath ctx token path := by
  induction n generalizing token with
  | zero => exact ⟨[token], .root h⟩
  | succ n ih =>
    by_cases hroot : token.payload.prf = []
    · exact ⟨[token], .root hroot⟩
    · -- Any proof will do; the first one is there.
      obtain ⟨cid, hcid⟩ := List.exists_mem_of_ne_nil _ hroot
      obtain ⟨parent, hparent, hdepth⟩ := h cid hcid
      obtain ⟨path, hpath⟩ := ih hdepth
      exact ⟨token :: path, .step ⟨cid, hcid, hparent⟩ hpath⟩

theorem WithinDepth.length_le {n : ℕ} (h : WithinDepth ctx n token)
    (hpath : ProofPath ctx token path) : path.length ≤ n+1 := by
  induction hpath generalizing n with
  | root => simp
  | step hproof _ ih =>
    obtain ⟨cid, hcid, hparent⟩ := hproof
    cases n with
    | zero =>
      rw [h] at hcid
      cases hcid
    | succ n =>
      obtain ⟨p, hp, hdepth⟩ := h cid hcid
      rw [hp] at hparent
      cases hparent
      have hle := ih hdepth
      simp only [List.length_cons]
      omega

theorem ProofPath.ancestor (hpath : ProofPath ctx token path) {t : UcanToken} (ht : t ∈ path) :
    Ancestor ctx token t := by
  induction hpath with
  | root =>
    rw [List.mem_singleton.mp ht]
    exact .refl
  | step hproof _ ih =>
    rcases List.mem_cons.mp ht with ht | ht
    · rw [ht]
      exact .refl
    · exact .head hproof (ih ht)

/-- The walk only adds to the issuers seen, and the root it finds above a token with
proofs is new to them. -/
def Marks (walk : Walk) : Prop :=
  ∀ token seen root seen', walk token seen = .ok (root, seen') → seen ⊆ seen' ∧
    (token.payload.prf = [] → root = token.payload.iss) ∧
    (token.payload.prf ≠ [] → root ∈ seen' ∧ root ∉ seen)

/-- What a turn of the loop has checked. -/
structure Stepped (ctx : ValidationContext Key) (walk : Walk) (token : UcanToken)
    (seen : List String) (cid root : String) (seen' : List String) : Prop where
  checked : ∃ parent, ctx.resolveProof cid = .ok parent ∧ parent.payload.iss ∉ seen ∧
    verifyParent ctx token parent = .ok () ∧
    walk parent (parent.payload.iss :: seen) = .ok (root, seen')
  kept : seen ⊆ seen'
  marked : root ∈ seen'
  fresh : root ∉ seen

theorem proofStep_ok {walk : Walk} (hwalk : Marks walk) {known : Option String}
    {seen : List String} {cid : String} {state : Option String × List String}
    (h : proofStep ctx walk token (known, seen) cid = .ok state) :
    ∃ root, state.1 = some root ∧ (∀ existing, known = some existing → existing = root) ∧
      Stepped ctx walk token seen cid root state.2 := by
  simp only [proofStep, bind_ok_iff, exists_unit_iff, require_ok_iff, decide_eq_true_eq,
    pure_ok_iff, agreeRoot] at h
  obtain ⟨parent, hparent, hnew, hcheck, ⟨root, seen'⟩, hrec, agreed, ⟨hsame, hroot⟩, hstate⟩ := h
  obtain ⟨hkept, hroot_iss, hmark⟩ := hwalk _ _ _ _ hrec
  have hfresh : root ∈ seen' ∧ root ∉ seen := by
    by_cases hproofs : parent.payload.prf = []
    · rw [hroot_iss hproofs]
      exact ⟨hkept List.mem_cons_self, hnew⟩
    · obtain ⟨hin, hout⟩ := hmark hproofs
      exact ⟨hin, fun hmem => hout (List.mem_cons_of_mem _ hmem)⟩
  subst hroot hstate
  refine ⟨root, rfl, ?_, ⟨⟨parent, hparent, hnew, hcheck, hrec⟩, ?_, hfresh.1, hfresh.2⟩⟩
  · intro existing hknown
    rw [hknown] at hsame
    simpa using hsame
  · intro i hi
    exact hkept (List.mem_cons_of_mem _ hi)

/-- A second proof would have to reach the root of the first, which is seen by then. -/
theorem proofs_single {walk : Walk} (hwalk : Marks walk) {seen : List String} {cid : String}
    {cids : List String} {state : Option String × List String}
    (h : (cid :: cids).foldlM (proofStep ctx walk token) (none, seen) = .ok state) :
    cids = [] ∧ ∃ root, state.1 = some root ∧ Stepped ctx walk token seen cid root state.2 := by
  rw [List.foldlM_cons, bind_ok_iff] at h
  obtain ⟨first, hfirst, hrest⟩ := h
  obtain ⟨root, hroot, _, hstep⟩ := proofStep_ok hwalk hfirst
  cases cids with
  | nil =>
    simp only [List.foldlM_nil, pure_ok_iff] at hrest
    subst hrest
    exact ⟨rfl, root, hroot, hstep⟩
  | cons cid' cids =>
    exfalso
    rw [List.foldlM_cons, bind_ok_iff] at hrest
    obtain ⟨second, hsecond, _⟩ := hrest
    obtain ⟨root', _, hsame, hstep'⟩ := proofStep_ok hwalk hsecond
    apply hstep'.fresh
    rw [← hsame root hroot]
    exact hstep.marked

/-- With proofs, the walk is the loop over them. -/
theorem verifyChainRecursive_proofs {n : ℕ} {seen seen' : List String} {root : String}
    (hproofs : token.payload.prf ≠ []) :
    verifyChainRecursive ctx (n+1) token seen = .ok (root, seen') ↔
      token.payload.prf.foldlM (proofStep ctx (verifyChainRecursive ctx n) token) (none, seen) =
        .ok (some root, seen') := by
  rw [verifyChainRecursive, if_neg hproofs]
  simp only [bind_ok_iff, okOr_ok_iff, pure_ok_iff, Prod.mk.injEq]
  constructor
  · intro h
    obtain ⟨⟨known, seen''⟩, hfold, root', hroot, hsame, hseen⟩ := h
    rw [hfold, ← hsame, ← hseen, ← hroot]
  · intro h
    exact ⟨_, h, root, rfl, rfl, rfl⟩

theorem verifyChainRecursive_marks (n : ℕ) : Marks (verifyChainRecursive ctx n) := by
  induction n with
  | zero =>
    intro token seen root seen' h
    cases h
  | succ n ih =>
    intro token seen root seen' h
    by_cases hroot : token.payload.prf = []
    · simp only [verifyChainRecursive, hroot, if_true, Except.ok.injEq, Prod.mk.injEq] at h
      obtain ⟨hiss, hseen⟩ := h
      subst hseen
      exact ⟨fun _ hi => hi, fun _ => hiss.symm, fun hne => absurd hroot hne⟩
    · rw [verifyChainRecursive_proofs hroot] at h
      obtain ⟨cid, cids, hprf⟩ := List.exists_cons_of_ne_nil hroot
      rw [hprf] at h
      obtain ⟨_, root', hroot', hstep⟩ := proofs_single ih h
      cases hroot'
      exact ⟨hstep.kept, fun hnil => absurd hnil hroot, fun _ => ⟨hstep.marked, hstep.fresh⟩⟩

/-- The walk accepts a token without proofs, and one with a single proof that it
accepts; it never accepts two. -/
theorem verifyChainRecursive_ok_iff {n : ℕ} {seen seen' : List String} {root : String} :
    verifyChainRecursive ctx (n+1) token seen = .ok (root, seen') ↔
      (token.payload.prf = [] ∧ root = token.payload.iss ∧ seen' = seen) ∨
      ∃ cid parent, token.payload.prf = [cid] ∧ ctx.resolveProof cid = .ok parent ∧
        parent.payload.iss ∉ seen ∧ verifyParent ctx token parent = .ok () ∧
        verifyChainRecursive ctx n parent (parent.payload.iss :: seen) = .ok (root, seen') := by
  by_cases hroot : token.payload.prf = []
  · simp [verifyChainRecursive, hroot, eq_comm]
  rw [verifyChainRecursive_proofs hroot]
  obtain ⟨cid, cids, hprf⟩ := List.exists_cons_of_ne_nil hroot
  constructor
  · intro h
    rw [hprf] at h
    obtain ⟨hone, root', hroot', hstep⟩ := proofs_single (verifyChainRecursive_marks n) h
    cases hroot'
    obtain ⟨parent, hparent⟩ := hstep.checked
    rw [hone] at hprf
    exact Or.inr ⟨cid, parent, hprf, hparent⟩
  · intro h
    rcases h with ⟨hnil, _⟩ | ⟨cid, parent, hone, hparent, hnew, hcheck, hrec⟩
    · exact absurd hnil hroot
    · rw [hone, List.foldlM_cons, bind_ok_iff]
      refine ⟨(some root, seen'), ?_, rfl⟩
      simp only [proofStep, bind_ok_iff, exists_unit_iff, require_ok_iff, decide_eq_true_eq]
      exact ⟨parent, hparent, hnew, hcheck, (root, seen'), hrec, some root, rfl, rfl⟩

theorem withinDepth_of_walk {n : ℕ} {seen seen' : List String} {root : String}
    (h : verifyChainRecursive ctx (n+1) token seen = .ok (root, seen')) :
    WithinDepth ctx n token := by
  induction n generalizing token seen with
  | zero =>
    rcases verifyChainRecursive_ok_iff.mp h with ⟨hnil, _⟩ | ⟨_, _, _, _, _, _, hrec⟩
    · exact hnil
    · cases hrec
  | succ n ih =>
    intro cid hcid
    rcases verifyChainRecursive_ok_iff.mp h with ⟨hnil, _⟩ | ⟨_, parent, hone, hparent, _, _, hrec⟩
    · rw [hnil] at hcid
      cases hcid
    · rw [hone, List.mem_singleton] at hcid
      rw [hcid]
      exact ⟨parent, hparent, ih hrec⟩

/-- The one proof the walk has followed. -/
theorem isProof_of_walk {n : ℕ} {seen seen' : List String} {root : String}
    (h : verifyChainRecursive ctx n token seen = .ok (root, seen'))
    (hproof : IsProof ctx token parent) :
    ∃ m, n = m+1 ∧ token.payload.prf.length = 1 ∧ parent.payload.iss ∉ seen ∧
      verifyParent ctx token parent = .ok () ∧
      verifyChainRecursive ctx m parent (parent.payload.iss :: seen) = .ok (root, seen') := by
  cases n with
  | zero => cases h
  | succ m =>
    rcases verifyChainRecursive_ok_iff.mp h with ⟨hnil, _⟩ | ⟨cid, p, hone, hp, hnew, hcheck, hrec⟩
    · exact absurd hproof (not_isProof_of_root hnil)
    · obtain ⟨cid', hcid', hparent⟩ := hproof
      rw [hone, List.mem_singleton] at hcid'
      rw [hcid', hp] at hparent
      cases hparent
      exact ⟨m, rfl, by rw [hone]; rfl, hnew, hcheck, hrec⟩

/-- What holds of every path under a token the walk has accepted. -/
structure WalkedPath (ctx : ValidationContext Key) (seen : List String) (root : String)
    (path : List UcanToken) : Prop where
  edges : path.IsChain (fun child parent => verifyParent ctx child parent = .ok ())
  distinct : (issuers path.tail).Nodup
  fresh : ∀ i ∈ issuers path.tail, i ∉ seen
  root : (issuers path).getLast? = some root

theorem walkedPath {n : ℕ} {seen seen' : List String} {root : String}
    (h : verifyChainRecursive ctx n token seen = .ok (root, seen'))
    (hpath : ProofPath ctx token path) : WalkedPath ctx seen root path := by
  -- The walk's own recursion descends the path, so the induction is on the path.
  induction hpath generalizing n seen with
  | root hnil =>
    cases n with
    | zero => cases h
    | succ m =>
      rcases verifyChainRecursive_ok_iff.mp h with ⟨_, hroot, _⟩ | ⟨_, _, hone, _⟩
      · exact ⟨List.isChain_singleton _, List.nodup_nil, by simp [issuers], by simp [issuers, hroot]⟩
      · rw [hnil] at hone
        cases hone
  | step hproof hpath ih =>
    obtain ⟨m, _, _, hnew, hcheck, hrec⟩ := isProof_of_walk h hproof
    have hrest := ih hrec
    obtain ⟨rest, hhead⟩ := hpath.head
    subst hhead
    refine ⟨List.isChain_cons_cons.mpr ⟨hcheck, hrest.edges⟩, ?_, ?_, ?_⟩
    · apply List.nodup_cons.mpr
      refine ⟨?_, hrest.distinct⟩
      intro hmem
      exact hrest.fresh _ hmem List.mem_cons_self
    · intro i hi
      rcases List.mem_cons.mp hi with hi | hi
      · rw [hi]
        exact hnew
      · intro hseen
        exact hrest.fresh i hi (List.mem_cons_of_mem _ hseen)
    · exact hrest.root

/-- A proof that passes each check made on it. -/
structure GoodProof (ctx : ValidationContext Key) (child parent : UcanToken) : Prop where
  links : parent.payload.aud = child.payload.iss
  attenuates : verifyEdgeAttenuation ctx child parent = .ok ()
  keyScoped : validateKeyScope parent = .ok ()
  signed : verifySignature ctx parent = .ok ()
  timely : verifyExpiry ctx parent = .ok ()
  unrevoked : ctx.isRevoked (ctx.computeRevocationCid parent.encoded) = false

theorem verifyParent_ok_iff :
    verifyParent ctx token parent = .ok () ↔ GoodProof ctx token parent := by
  simp only [verifyParent, bind_ok_iff, exists_unit_iff, require_ok_iff, decide_eq_true_eq,
    mapError_ok_iff, Bool.not_eq_true']
  constructor
  · intro h
    obtain ⟨hlink, hedge, hscope, hsigned, htime, hrevoked⟩ := h
    exact ⟨hlink, hedge, hscope, hsigned, htime, hrevoked⟩
  · intro h
    exact ⟨h.links, h.attenuates, h.keyScoped, h.signed, h.timely, h.unrevoked⟩

/-- A proof tree of good proofs, with distinct issuers on each path and one root
issuer. -/
structure Converges (ctx : ValidationContext Key) (token : UcanToken) (root : String) :
    Prop where
  depth : WithinDepth ctx maxChainDepth token
  good : ∀ child parent, Ancestor ctx token child → IsProof ctx child parent →
    GoodProof ctx child parent
  distinct : ∀ path, ProofPath ctx token path → (issuers path).Nodup
  root : ∀ path, ProofPath ctx token path → (issuers path).getLast? = some root

/-- No token of the tree has more than one proof. -/
def Linear (ctx : ValidationContext Key) (token : UcanToken) : Prop :=
  ∀ t, Ancestor ctx token t → t.payload.prf.length ≤ 1

theorem linear_of_walk {n : ℕ} {seen seen' : List String} {root : String}
    (h : verifyChainRecursive ctx n token seen = .ok (root, seen')) : Linear ctx token := by
  intro t ht
  induction ht using Relation.ReflTransGen.head_induction_on generalizing n seen with
  | refl =>
    by_cases hroot : t.payload.prf = []
    · simp [hroot]
    · cases n with
      | zero => cases h
      | succ m =>
        rcases verifyChainRecursive_ok_iff.mp h with ⟨hnil, _⟩ | ⟨_, _, hone, _⟩
        · exact absurd hnil hroot
        · simp [hone]
  | head hproof _ ih =>
    obtain ⟨_, _, _, _, _, hrec⟩ := isProof_of_walk h hproof
    exact ih hrec

/-- Every edge above a token the walk has accepted is good. -/
theorem goodProof_of_walk {n : ℕ} {seen seen' : List String} {root : String}
    (h : verifyChainRecursive ctx n token seen = .ok (root, seen')) {child : UcanToken}
    (hchild : Ancestor ctx token child) (hproof : IsProof ctx child parent) :
    GoodProof ctx child parent := by
  induction hchild using Relation.ReflTransGen.head_induction_on generalizing n seen with
  | refl =>
    obtain ⟨_, _, _, _, hcheck, _⟩ := isProof_of_walk h hproof
    exact verifyParent_ok_iff.mp hcheck
  | head hbelow _ ih =>
    obtain ⟨_, _, _, _, _, hrec⟩ := isProof_of_walk h hbelow
    exact ih hrec

/-- A linear chain of good proofs is accepted where the issuers above are new. -/
theorem walk_of_linear {n : ℕ} {seen : List String} {root : String}
    (hdepth : WithinDepth ctx n token) (hlinear : Linear ctx token)
    (hgood : ∀ child parent, Ancestor ctx token child → IsProof ctx child parent →
      GoodProof ctx child parent)
    (hpaths : ∀ path, ProofPath ctx token path → (issuers path.tail).Nodup ∧
      (∀ i ∈ issuers path.tail, i ∉ seen) ∧ (issuers path).getLast? = some root) :
    ∃ seen', verifyChainRecursive ctx (n+1) token seen = .ok (root, seen') := by
  induction n generalizing token seen with
  | zero =>
    have hroot : token.payload.iss = root := by simpa [issuers] using (hpaths _ (.root hdepth)).2.2
    exact ⟨seen, verifyChainRecursive_ok_iff.mpr (Or.inl ⟨hdepth, hroot.symm, rfl⟩)⟩
  | succ n ih =>
    by_cases hnil : token.payload.prf = []
    · have hroot : token.payload.iss = root := by simpa [issuers] using (hpaths _ (.root hnil)).2.2
      exact ⟨seen, verifyChainRecursive_ok_iff.mpr (Or.inl ⟨hnil, hroot.symm, rfl⟩)⟩
    -- The single proof, and the paths above it.
    have hone : token.payload.prf.length = 1 := by
      have hpos : 0 < token.payload.prf.length := List.length_pos_of_ne_nil hnil
      have hle := hlinear token .refl
      omega
    obtain ⟨cid, hcid⟩ := List.length_eq_one_iff.mp hone
    obtain ⟨parent, hparent, hdepth'⟩ := hdepth cid (by simp [hcid])
    have hproof : IsProof ctx token parent := ⟨cid, by simp [hcid], hparent⟩
    obtain ⟨above, habove⟩ := hdepth'.exists_path
    obtain ⟨rest, hhead⟩ := habove.head
    have hnew : parent.payload.iss ∉ seen := by
      apply (hpaths _ (.step hproof habove)).2.1
      simp [hhead, issuers]
    have hrec : ∃ seen', verifyChainRecursive ctx (n+1) parent (parent.payload.iss :: seen) =
        .ok (root, seen') := by
      apply ih hdepth'
      · intro t ht
        exact hlinear t (.head hproof ht)
      · intro child p hchild
        exact hgood child p (.head hproof hchild)
      · intro path hpath
        obtain ⟨hdistinct, hfresh, hlast⟩ := hpaths _ (.step hproof hpath)
        obtain ⟨rest, hhead⟩ := hpath.head
        subst hhead
        have hcons := List.nodup_cons.mp hdistinct
        refine ⟨hcons.2, ?_, hlast⟩
        intro i hi hmem
        rcases List.mem_cons.mp hmem with hmem | hmem
        · rw [hmem] at hi
          exact hcons.1 hi
        · exact hfresh i (List.mem_cons_of_mem _ hi) hmem
    obtain ⟨seen', hseen'⟩ := hrec
    refine ⟨seen', verifyChainRecursive_ok_iff.mpr (Or.inr ?_)⟩
    exact ⟨cid, parent, hcid, hparent, hnew,
      verifyParent_ok_iff.mpr (hgood token parent .refl hproof), hseen'⟩

/-- The walk from the presented token; it starts with that token's issuer seen. -/
theorem verifyDelegationChain_ok_iff {root : String} :
    verifyDelegationChain ctx token = .ok root ↔
      ∃ seen', verifyChainRecursive ctx (maxChainDepth+1) token [token.payload.iss] =
        .ok (root, seen') := by
  by_cases hnil : token.payload.prf = []
  · simp [verifyDelegationChain, verifyChainRecursive, hnil]
  · rw [verifyDelegationChain, if_neg hnil]
    simp only [bind_ok_iff, pure_ok_iff, Prod.exists]
    constructor
    · intro h
      obtain ⟨found, seen', hwalk, hroot⟩ := h
      exact ⟨seen', by rw [hwalk, hroot]⟩
    · intro h
      obtain ⟨seen', hwalk⟩ := h
      exact ⟨root, seen', hwalk, rfl⟩

/-- Proofs that converge on one root are accepted exactly where there is nothing to
converge: the issuer of the root is already seen when a second proof reaches it. -/
theorem verifyDelegationChain_converging_iff {root : String} (h : Converges ctx token root) :
    verifyDelegationChain ctx token = .ok root ↔ Linear ctx token := by
  rw [verifyDelegationChain_ok_iff]
  constructor
  · intro hok
    obtain ⟨seen', hwalk⟩ := hok
    exact linear_of_walk hwalk
  · intro hlinear
    apply walk_of_linear h.depth hlinear h.good
    intro path hpath
    have hdistinct := h.distinct path hpath
    obtain ⟨rest, hhead⟩ := hpath.head
    subst hhead
    have hcons := List.nodup_cons.mp hdistinct
    refine ⟨hcons.2, ?_, h.root _ hpath⟩
    intro i hi hmem
    rw [List.mem_singleton.mp hmem] at hi
    exact hcons.1 hi

/-- A token whose proofs are all root tokens of one other issuer. -/
theorem converges_of_roots {root : String} (hproofs : token.payload.prf ≠ [])
    (hother : token.payload.iss ≠ root)
    (hroots : ∀ cid ∈ token.payload.prf, ∃ parent, ctx.resolveProof cid = .ok parent ∧
      parent.payload.prf = [] ∧ parent.payload.iss = root ∧ GoodProof ctx token parent) :
    Converges ctx token root := by
  have hparent : ∀ parent, IsProof ctx token parent → parent.payload.prf = [] ∧
      parent.payload.iss = root ∧ GoodProof ctx token parent := by
    intro parent hproof
    obtain ⟨cid, hcid, hresolve⟩ := hproof
    obtain ⟨p, hp, hrest⟩ := hroots cid hcid
    rw [hp] at hresolve
    cases hresolve
    exact hrest
  have hpath : ∀ path, ProofPath ctx token path → issuers path = [token.payload.iss, root] := by
    intro path hpath
    cases hpath with
    | root hnil => exact absurd hnil hproofs
    | step hproof habove =>
      obtain ⟨hnil, hiss, _⟩ := hparent _ hproof
      cases habove with
      | root => simp [issuers, hiss]
      | step hmore _ => exact absurd hmore (not_isProof_of_root hnil)
  refine ⟨?_, ?_, ?_, ?_⟩
  · intro cid hcid
    obtain ⟨parent, hresolve, hnil, _⟩ := hroots cid hcid
    refine ⟨parent, hresolve, ?_⟩
    intro cid' hcid'
    rw [hnil] at hcid'
    cases hcid'
  · intro child parent hchild hproof
    induction hchild with
    | refl => exact (hparent parent hproof).2.2
    | tail hbelow hstep ih =>
      -- Above a proof there is nothing: a proof of the token is a root token.
      exfalso
      rcases Relation.ReflTransGen.cases_head hbelow with heq | ⟨first, hfirst, hmore⟩
      · rw [← heq] at hstep
        exact not_isProof_of_root (hparent _ hstep).1 hproof
      · rcases Relation.ReflTransGen.cases_head hmore with heq | ⟨_, hsecond, _⟩
        · rw [← heq] at hstep
          exact not_isProof_of_root (hparent _ hfirst).1 hstep
        · exact not_isProof_of_root (hparent _ hfirst).1 hsecond
  · intro path h
    rw [hpath path h]
    simpa using hother
  · intro path h
    rw [hpath path h]
    rfl

end Chain

/-- A token signed with its issuer's active key, valid for an hour from time zero. -/
def sampleToken (iss aud encoded : String) (att prf : List String) : UcanToken where
  header := ⟨"EdDSA", "JWT", "0.10.0", none⟩
  payload := ⟨iss, aud, 3600, none, "0-00", att.map (fun uri => ⟨uri, "*"⟩), prf, none, none⟩
  signature := [1]
  encoded := encoded

/-- A context of the creator `"root"` that resolves the given proofs by their encoding. -/
def sampleContext (proofs : List UcanToken) : ValidationContext String where
  resolvePublicKey did := .ok did
  resolvePublicKeyByKid did kid := .ok (did ++ kid)
  verifyEd25519Signature _ _ signature := signature = [1]
  checkAndRecord _ _ := .ok ()
  isRevoked _ := false
  computeRevocationCid encoded := encoded
  resolveProof cid := okOr (proofs.find? (·.encoded = cid))
    (.delegationChainBroken (.unresolvedProof cid))
  resolveCaveats token := token.payload.nb
  ceiling := ["messages:*", "did_document:*", "outlet_call:*"]
  contextCreatorDid := "root"
  presentingAgentDid := "bob"
  clockSkewToleranceSecs := 300
  now := 60

/-- A sample context resolves only the proofs it is given. -/
theorem sampleContext_ancestor {proofs : List UcanToken} {token t : UcanToken}
    (h : Ancestor (sampleContext proofs) token t) : t = token ∨ t ∈ proofs := by
  rcases Relation.ReflTransGen.cases_tail h with heq | ⟨child, _, hproof⟩
  · exact Or.inl heq
  · obtain ⟨cid, _, hresolve⟩ := hproof
    have hfound := (okOr_ok_iff _ _ _).mp hresolve
    exact Or.inr (List.mem_of_find?_eq_some hfound)

def firstGrant : UcanToken := sampleToken "root" "alice" "h.1.s" ["scp:ctx:*/messages:*"] []

def secondGrant : UcanToken := sampleToken "root" "alice" "h.2.s" ["scp:ctx:c1/messages:write"] []

/-- Alice passes on what one grant, or both, of the creator give her. -/
def delegated (prf : List String) : UcanToken :=
  sampleToken "alice" "bob" "h.3.s" ["scp:ctx:c1/messages:write"] prf

/-- Each of the two grants is a good proof of what Alice passes on. -/
theorem delegated_converges {prf : List String} (hproofs : prf ≠ [])
    (hfirst : verifyParent (sampleContext [firstGrant, secondGrant]) (delegated prf) firstGrant =
      .ok ())
    (hsecond : verifyParent (sampleContext [firstGrant, secondGrant]) (delegated prf) secondGrant =
      .ok ())
    (hprf : ∀ cid ∈ prf, cid = "h.1.s" ∨ cid = "h.2.s") :
    Converges (sampleContext [firstGrant, secondGrant]) (delegated prf) "root" := by
  apply converges_of_roots hproofs
  · change "alice" ≠ "root"
    decide
  intro cid hcid
  rcases hprf cid hcid with hcid | hcid
  · rw [hcid]
    exact ⟨firstGrant, by decide +kernel, rfl, rfl, verifyParent_ok_iff.mp hfirst⟩
  · rw [hcid]
    exact ⟨secondGrant, by decide +kernel, rfl, rfl, verifyParent_ok_iff.mp hsecond⟩

/-- One grant of the creator is enough. -/
theorem one_grant_accepted :
    Converges (sampleContext [firstGrant, secondGrant]) (delegated ["h.1.s"]) "root" ∧
      Linear (sampleContext [firstGrant, secondGrant]) (delegated ["h.1.s"]) := by
  have h : Converges (sampleContext [firstGrant, secondGrant]) (delegated ["h.1.s"]) "root" :=
    delegated_converges (by decide) (by decide +kernel) (by decide +kernel) (by simp)
  exact ⟨h, (verifyDelegationChain_converging_iff h).mp (by decide +kernel)⟩

/-- Two grants of the creator are a circular delegation to the walk. -/
theorem two_grants_refused :
    Converges (sampleContext [firstGrant, secondGrant]) (delegated ["h.1.s", "h.2.s"]) "root" ∧
      verifyDelegationChain (sampleContext [firstGrant, secondGrant])
        (delegated ["h.1.s", "h.2.s"]) = .error (.circularDelegation "root") := by
  constructor
  · exact delegated_converges (by decide) (by decide +kernel) (by decide +kernel) (by simp)
  · decide +kernel

end ScpCore.Ucan
