import ScpCore.ExactRead
import ScpCore.Saturating

/-! Admission of an agent to a context: the capabilities the context requires, each with a
level, the challengers it trusts and a cap on retries, against the capabilities the agent
claims and the challenge records it brings. -/

namespace ScpCore.Admission

abbrev Digest := BitVec 256
abbrev Key := BitVec 256

def maxTrustedVerifiersPerRequirement : ℕ := 32
def maxCapabilityRequirementsPerContext : ℕ := 64
def maxAdmissionRecords : ℕ := 256
def challengeClockSkewSecs : ℕ := 300
def maxVerificationValiditySecs : ℕ := 7776000
def totalWeightBps : ℕ := 10000

inductive CapabilityUri
  | protocol (name : String) (version : ℕ)
  | identifierScoped (definer name : String) (version : ℕ)
  | system (name : String)
  deriving DecidableEq

def CapabilityUri.toString : CapabilityUri → String
  | .protocol name version => "scp:capability:" ++ name ++ "/v" ++ version.repr
  | .identifierScoped definer name version =>
    definer ++ ":capability:" ++ name ++ "/v" ++ version.repr
  | .system name => "scp:system:" ++ name

inductive MinCases
  | total (k : ℕ)
  | perCategory (k : ℕ)
  deriving DecidableEq

structure CapabilityDefinition where
  capabilityUri : String
  minCases : MinCases
  passThresholdBps : ℕ
  maxRetries : ℕ
  cooldownSecs : ℕ
  description : String
  deriving DecidableEq

/-- A record the challenger signs for one graded attempt. -/
structure ChallengeVerification where
  verificationId : Digest
  verifier : String
  subject : String
  capabilityUri : String
  definitionDigest : Digest
  suiteDigest : Digest
  challengeId : Digest
  attempt : ℕ
  responseDigest : Digest
  maxRetries : ℕ
  cooldownSecs : ℕ
  passThresholdBps : ℕ
  minCategoryCases : ℕ
  passed : Bool
  score : ℕ
  testCount : ℕ
  passCount : ℕ
  challengeCreatedAt : ℕ
  challengeExpiresAt : ℕ
  timestamp : ℕ
  expiresAt : ℕ
  contextId : String
  verifierSignature : Bytes
  deriving DecidableEq

/-- What the definition forbids in a record's signed policy. -/
inductive PolicyFailure
  | attempt | definitionDigest | passThreshold | maxRetries | cooldown | window | minimum
  | minCategoryCases
  deriving DecidableEq

/-- The errors that checking a record can end in; `fault` stands for those that no check of
a record raises itself. -/
inductive TrustError
  | nonCanonicalIdentifier (identifier reason : String)
  | canonicalizationFailed (reason : String)
  | challengeVerificationIdMismatch
  | challengeVerificationOutsideWindow
  | challengeVerificationFromFuture
  | challengeVerificationValidityTooLong
  | unknownChallengeCapability (uri : String)
  | standardNotGradable (uri : String)
  | definitionEquivocation
  | policyOutsideDefinition (uri : String) (failure : PolicyFailure)
  | challengeVerificationInconsistent
  | selfChallenge (identifier : String)
  | challengeSubjectMismatch
  | challengeContextMismatch
  | challengeVerificationExpired
  | challengeVerificationSignatureInvalid (reason : String)
  | capabilityDefinitionUnavailable (uri : String)
  | keyResolutionUnavailable (did reason : String)
  | fault (reason : String)
  deriving DecidableEq

/-- Whether the error judges the record, and not the check. -/
def TrustError.isRecordRejection : TrustError → Bool
  | .capabilityDefinitionUnavailable _ | .keyResolutionUnavailable _ _ | .fault _ => false
  | _ => true

/-- An identifier with the key it decodes to. -/
structure CanonicalIdentifier where
  text : String
  key : Key
  deriving DecidableEq

/-- Identifiers are compared by key, never by text. -/
def CanonicalIdentifier.same (a b : CanonicalIdentifier) : Bool := a.key = b.key

/-- What a check takes from the cryptographic code: the key an identifier spells, the
canonical digests, the definitions' own checks and the signature check. -/
structure TrustCrypto where
  extractPublicKeyFromDid : String → Except String Key
  challengeVerificationId : ChallengeVerification → Except TrustError Digest
  challengeVerificationSigningDigest : ChallengeVerification → Except TrustError Digest
  validateCapabilityUri : String → Option CapabilityUri
  validateDefinition : CapabilityDefinition → Except TrustError Unit
  definitionDigest : CapabilityDefinition → Except TrustError Digest
  verifyEd25519Signature : Key → Digest → Bytes → Except String Unit

/-- What an admission check binds records to and checks them with. -/
structure AdmissionCheck where
  contextId : String
  subjectDid : String
  resolveActiveKey : String → Except TrustError Key
  definition : CapabilityUri → Except TrustError CapabilityDefinition
  now : ℕ

section Verify
variable (E : TrustCrypto)

def CanonicalIdentifier.parse (identifier : String) : Except TrustError CanonicalIdentifier :=
  if identifier.startsWith "did:dht:" then do
    let key ← (E.extractPublicKeyFromDid identifier).mapError (.nonCanonicalIdentifier identifier)
    pure ⟨identifier, key⟩
  else .error (.nonCanonicalIdentifier identifier "only did:dht identifiers are accepted")

/-- The definition of a capability with its digest. -/
def resolveDefinition (check : AdmissionCheck) (capabilityUri : String) :
    Except TrustError (CapabilityDefinition × Digest) := do
  let parsed ← okOr (E.validateCapabilityUri capabilityUri) (.unknownChallengeCapability capabilityUri)
  require (parsed.toString = capabilityUri) (.unknownChallengeCapability capabilityUri)
  let definition ← check.definition parsed
  require (definition.capabilityUri = capabilityUri) (.capabilityDefinitionUnavailable capabilityUri)
  E.validateDefinition definition
  let digest ← E.definitionDigest definition
  pure (definition, digest)

/-- The signed policy against the definition. -/
def checkRecordPolicy (check : AdmissionCheck) (v : ChallengeVerification) :
    Except TrustError Unit := do
  let outside := TrustError.policyOutsideDefinition v.capabilityUri
  require (v.attempt ≠ 0 && v.attempt-1 ≤ v.maxRetries) (outside .attempt)
  let (definition, digest) ← resolveDefinition E check v.capabilityUri
  let minimumMet := match definition.minCases with
    | .total k => decide (k ≤ v.testCount)
    | .perCategory k => decide (k ≤ v.minCategoryCases)
  require (v.definitionDigest = digest) (outside .definitionDigest)
  require (v.passThresholdBps = definition.passThresholdBps) (outside .passThreshold)
  require (v.maxRetries ≤ definition.maxRetries) (outside .maxRetries)
  require (definition.cooldownSecs ≤ v.cooldownSecs) (outside .cooldown)
  require (definition.cooldownSecs ≤ v.challengeExpiresAt-v.challengeCreatedAt) (outside .window)
  require minimumMet (outside .minimum)
  require (v.minCategoryCases ≤ v.testCount) (outside .minCategoryCases)

def gradingTimeInWindow (createdAt expiresAt t : ℕ) : Bool := createdAt < t && t < expiresAt

/-- `verify_challenge_verification`: the verifier is resolved last. -/
def verifyChallengeVerification (check : AdmissionCheck) (v : ChallengeVerification) :
    Except TrustError Unit := do
  let verifier ← CanonicalIdentifier.parse E v.verifier
  let subject ← CanonicalIdentifier.parse E v.subject
  let expected ← CanonicalIdentifier.parse E check.subjectDid
  let expectedId ← E.challengeVerificationId v
  require (v.verificationId = expectedId) .challengeVerificationIdMismatch
  require (gradingTimeInWindow v.challengeCreatedAt v.challengeExpiresAt v.timestamp)
    .challengeVerificationOutsideWindow
  require (v.timestamp ≤ saturatingAdd check.now challengeClockSkewSecs)
    .challengeVerificationFromFuture
  require (v.expiresAt-v.timestamp ≤ maxVerificationValiditySecs)
    .challengeVerificationValidityTooLong
  checkRecordPolicy E check v
  require (v.passed == decide (v.passThresholdBps ≤ v.score) && v.score ≤ totalWeightBps &&
    v.passCount ≤ v.testCount) .challengeVerificationInconsistent
  require (!verifier.same subject) (.selfChallenge v.subject)
  require (subject.same expected) .challengeSubjectMismatch
  require (v.contextId = check.contextId) .challengeContextMismatch
  require (check.now < v.expiresAt) .challengeVerificationExpired
  let digest ← E.challengeVerificationSigningDigest v
  let key ← check.resolveActiveKey v.verifier
  (E.verifyEd25519Signature key digest v.verifierSignature).mapError
    .challengeVerificationSignatureInvalid

end Verify

inductive VerificationLevel
  | selfAttested | challengeVerified
  deriving DecidableEq

def VerificationLevel.rank : VerificationLevel → ℕ
  | .selfAttested => 0
  | .challengeVerified => 1

structure RetryCap where
  maxRetries : ℕ
  minCooldownSecs : ℕ
  deriving DecidableEq

namespace RetryCap

def atLeastAsStrictAs (cap other : RetryCap) : Bool :=
  cap.maxRetries ≤ other.maxRetries && other.minCooldownSecs ≤ cap.minCooldownSecs

/-- Both the cooldown and the challenge window of the record are as long as the cap asks. -/
def admits (cap : RetryCap) (record : ChallengeVerification) : Bool :=
  record.maxRetries ≤ cap.maxRetries && cap.minCooldownSecs ≤ record.cooldownSecs &&
    cap.minCooldownSecs ≤ record.challengeExpiresAt-record.challengeCreatedAt

theorem admits_of_stricter {cap other : RetryCap} {record : ChallengeVerification}
    (h : cap.atLeastAsStrictAs other = true) (hadmits : cap.admits record = true) :
    other.admits record = true := by
  simp only [atLeastAsStrictAs, Bool.and_eq_true, decide_eq_true_eq] at h
  simp only [admits, Bool.and_eq_true, decide_eq_true_eq] at hadmits ⊢
  omega

end RetryCap

structure RawCapabilityRequirement where
  capability : CapabilityUri
  verificationLevel : VerificationLevel
  trustedVerifiers : List String
  retryCap : Option RetryCap
  deriving DecidableEq

inductive AdmissionError
  | missingCapability (uri : String)
  | verificationRequired (uri : String)
  | untrustedVerifier (uri verifier : String)
  | selfChallenge (uri : String)
  | retryCapExceeded (uri : String)
  | nonCanonicalIdentifier (identifier reason : String)
  | nonCanonicalSubject (identifier : String) (error : TrustError)
  | tooManyCapabilityRequirements (count max : ℕ)
  | invalidRequirement (uri reason : String)
  | emptySubjectDid
  | verificationUnavailable (error : TrustError)
  deriving DecidableEq

section Requirement
variable (E : TrustCrypto)

/-- The trusted challengers of a requirement, in order; two that name one key are refused. -/
def parseTrusted (uri : String) : List CanonicalIdentifier → List String →
    Except AdmissionError (List CanonicalIdentifier)
  | trusted, [] => .ok trusted
  | trusted, did :: dids => do
    let id ← (CanonicalIdentifier.parse E did).mapError (fun
      | .nonCanonicalIdentifier identifier reason => .nonCanonicalIdentifier identifier reason
      | other => .nonCanonicalSubject did other)
    require (!trusted.any id.same)
      (.invalidRequirement uri "two trusted verifiers name one key")
    parseTrusted uri (trusted ++ [id]) dids

/-- `try_from`: the shape of the level first, then each challenger. -/
def trustedOf (raw : RawCapabilityRequirement) :
    Except AdmissionError (List CanonicalIdentifier) := do
  let invalid := AdmissionError.invalidRequirement raw.capability.toString
  match raw.verificationLevel with
  | .selfAttested =>
    require (raw.trustedVerifiers.isEmpty && raw.retryCap.isNone)
      (invalid "a SelfAttested requirement names no verifiers and no retry cap")
  | .challengeVerified => do
    require (!raw.trustedVerifiers.isEmpty)
      (invalid "a ChallengeVerified requirement names a verifier")
    require (raw.trustedVerifiers.length ≤ maxTrustedVerifiersPerRequirement)
      (invalid "too many trusted verifiers")
  parseTrusted E raw.capability.toString [] raw.trustedVerifiers

/-- A validated requirement. -/
structure CapabilityRequirement where
  raw : RawCapabilityRequirement
  trusted : List CanonicalIdentifier
  valid : trustedOf E raw = .ok trusted

/-- A context's requirements. -/
structure CapabilityRequirements where
  entries : List (CapabilityRequirement E)
  bounded : entries.length ≤ maxCapabilityRequirementsPerContext

variable {E}

namespace CapabilityRequirement
variable (requirement : CapabilityRequirement E)

def uri : String := requirement.raw.capability.toString

def level : VerificationLevel := requirement.raw.verificationLevel

def trusts (verifier : CanonicalIdentifier) : Bool := requirement.trusted.any verifier.same

/-- Whether the requirement is at least as strict as `old` for the same capability. -/
def tightens (old : CapabilityRequirement E) : Bool :=
  if requirement.raw.capability ≠ old.raw.capability || requirement.level.rank < old.level.rank then
    false
  else
    -- A level raised from SelfAttested had no verifier set to narrow.
    (old.level == .selfAttested ||
        requirement.trusted.all (fun id => old.trusted.any id.same)) &&
      match old.raw.retryCap, requirement.raw.retryCap with
      | none, _ => true
      | some _, none => false
      | some oldCap, some newCap => newCap.atLeastAsStrictAs oldCap

end CapabilityRequirement

/-- Whether replacing `old` only restricts admission. -/
def CapabilityRequirements.isTighteningOf (new old : CapabilityRequirements E) : Bool :=
  old.entries.all (fun o => new.entries.any (fun n => n.tightens o))

end Requirement

/-- The records one admission check reads. -/
structure ChallengeVerifications where
  entries : List ChallengeVerification
  bounded : entries.length ≤ maxAdmissionRecords

/-- What the checks that read no requirement found for one candidate. -/
inductive Verdict
  | verified (verifier : CanonicalIdentifier)
  | rejected (error : TrustError)
  | untrusted

inductive RecordStanding
  | satisfies
  | refused (error : AdmissionError)
  | irrelevant

section Check
variable {E : TrustCrypto}

/-- The loop of `candidate` over the requirements. -/
def namedBy (verifier : CanonicalIdentifier) (capabilityUri : String) (named : Bool) :
    List (CapabilityRequirement E) → Option Bool
  | [] => if named then some false else none
  | requirement :: rest =>
    if requirement.uri ≠ capabilityUri then namedBy verifier capabilityUri named rest
    else if requirement.level == .selfAttested || requirement.trusts verifier then some true
    else namedBy verifier capabilityUri true rest

/-- Whether the record can count toward some requirement: `none` discards it and
`some false` keeps it unverified. -/
def candidate (requirements : CapabilityRequirements E) (record : ChallengeVerification)
    (subject : CanonicalIdentifier) (contextId : String) : Option Bool :=
  if !record.passed || record.contextId ≠ contextId ||
      !(CanonicalIdentifier.parse E record.subject).toOption.any (·.same subject) then none
  else match CanonicalIdentifier.parse E record.verifier with
    | .error _ => none
    | .ok verifier => namedBy verifier record.capabilityUri false requirements.entries

def standing (requirement : CapabilityRequirement E)
    (checked : ChallengeVerification × Verdict) : RecordStanding :=
  if checked.1.capabilityUri ≠ requirement.uri then .irrelevant
  else match checked.2 with
    | .untrusted =>
      if requirement.level == .challengeVerified then
        .refused (.untrustedVerifier requirement.uri checked.1.verifier)
      else .irrelevant
    | .rejected (.selfChallenge _) => .refused (.selfChallenge requirement.uri)
    | .rejected _ => .irrelevant
    | .verified verifier =>
      if !checked.1.passed then .irrelevant
      else if requirement.level == .selfAttested then .satisfies
      else if !requirement.trusts verifier then
        .refused (.untrustedVerifier requirement.uri checked.1.verifier)
      else if requirement.raw.retryCap.any (fun cap => !cap.admits checked.1) then
        .refused (.retryCapExceeded requirement.uri)
      else .satisfies

/-- The records that are candidates, each with its verdict. A check that could not run ends
the admission. -/
def checkRecords (requirements : CapabilityRequirements E) (check : AdmissionCheck)
    (subject : CanonicalIdentifier) : List ChallengeVerification →
    Except AdmissionError (List (ChallengeVerification × Verdict))
  | [] => .ok []
  | record :: records =>
    match candidate requirements record subject check.contextId with
    | none => checkRecords requirements check subject records
    | some false => do
      let checked ← checkRecords requirements check subject records
      pure ((record, .untrusted) :: checked)
    | some true => do
      let verdict ← match verifyChallengeVerification E check record >>= fun _ =>
          CanonicalIdentifier.parse E record.verifier with
        | .ok verifier => .ok (.verified verifier)
        | .error e =>
          if e.isRecordRejection then .ok (.rejected e) else .error (.verificationUnavailable e)
      let checked ← checkRecords requirements check subject records
      pure ((record, verdict) :: checked)

/-- The scan of the checked records for one requirement: whether one satisfies it, and
otherwise the first refusal. -/
def scan (requirement : CapabilityRequirement E) (refusal : Option AdmissionError) :
    List (ChallengeVerification × Verdict) → Bool × Option AdmissionError
  | [] => (false, refusal)
  | checked :: rest =>
    match standing requirement checked with
    | .satisfies => (true, refusal)
    | .refused e => scan requirement (refusal.or (some e)) rest
    | .irrelevant => scan requirement refusal rest

def checkRequirement (agentCapabilities : List CapabilityUri)
    (checked : List (ChallengeVerification × Verdict)) (requirement : CapabilityRequirement E) :
    Except AdmissionError Unit :=
  let (satisfied, refusal) := scan requirement none checked
  if satisfied then .ok ()
  else match requirement.level with
    | .selfAttested => require (requirement.raw.capability ∈ agentCapabilities)
        (refusal.getD (.missingCapability requirement.uri))
    | .challengeVerified => .error (refusal.getD (.verificationRequired requirement.uri))

def checkCapabilityRequirements (requirements : CapabilityRequirements E)
    (agentCapabilities : List CapabilityUri) (challengeVerifications : ChallengeVerifications)
    (check : AdmissionCheck) : Except AdmissionError Unit := do
  require (!check.subjectDid.isEmpty) .emptySubjectDid
  let subject ← (CanonicalIdentifier.parse E check.subjectDid).mapError
    (.nonCanonicalSubject check.subjectDid)
  let checked ← checkRecords requirements check subject challengeVerifications.entries
  checkEach (checkRequirement agentCapabilities checked) requirements.entries

theorem namedBy_true_iff (verifier : CanonicalIdentifier) (capabilityUri : String)
    (named : Bool) (requirements : List (CapabilityRequirement E)) :
    namedBy verifier capabilityUri named requirements = some true ↔
      ∃ r ∈ requirements, r.uri = capabilityUri ∧
        (r.level = .selfAttested ∨ r.trusts verifier = true) := by
  induction requirements generalizing named with
  | nil =>
    unfold namedBy
    split <;> simp
  | cons r rest ih =>
    unfold namedBy
    by_cases huri : r.uri = capabilityUri
    · rw [if_neg (not_not.mpr huri)]
      by_cases hopen : (r.level == .selfAttested || r.trusts verifier) = true
      · rw [if_pos hopen]
        refine ⟨fun _ => ⟨r, List.mem_cons_self, huri, ?_⟩, fun _ => rfl⟩
        simpa using hopen
      · rw [if_neg hopen, ih]
        have hclosed : ¬ (r.level = .selfAttested ∨ r.trusts verifier = true) := by
          simpa using hopen
        simp [huri, hclosed]
    · rw [if_pos huri, ih]
      simp [huri]

/-- The record names the context, the subject and its own verifier, and passed. -/
structure Binds (check : AdmissionCheck) (subject verifier : CanonicalIdentifier)
    (record : ChallengeVerification) : Prop where
  passed : record.passed = true
  context : record.contextId = check.contextId
  subject : (CanonicalIdentifier.parse E record.subject).toOption.any (·.same subject) = true
  verifier : CanonicalIdentifier.parse E record.verifier = .ok verifier

theorem candidate_true_iff {requirements : CapabilityRequirements E} {check : AdmissionCheck}
    {record : ChallengeVerification} {subject : CanonicalIdentifier} :
    candidate requirements record subject check.contextId = some true ↔
      ∃ verifier, Binds (E := E) check subject verifier record ∧
        ∃ r ∈ requirements.entries, r.uri = record.capabilityUri ∧
          (r.level = .selfAttested ∨ r.trusts verifier = true) := by
  unfold candidate
  split
  · rename_i hfails
    refine ⟨nofun, ?_⟩
    intro h
    obtain ⟨verifier, hbinds, -⟩ := h
    simp [hbinds.passed, hbinds.context, hbinds.subject] at hfails
  · rename_i hpasses
    simp only [Bool.or_eq_true, Bool.not_eq_true', decide_eq_true_eq, not_or,
      Bool.not_eq_false, not_not] at hpasses
    obtain ⟨⟨hpassed, hcontext⟩, hsubject⟩ := hpasses
    cases hverifier : CanonicalIdentifier.parse E record.verifier with
    | error e =>
      refine ⟨nofun, ?_⟩
      intro h
      obtain ⟨verifier, hbinds, -⟩ := h
      rw [hbinds.verifier] at hverifier
      cases hverifier
    | ok verifier =>
      dsimp only
      rw [namedBy_true_iff]
      constructor
      · intro h
        exact ⟨verifier, ⟨hpassed, hcontext, hsubject, hverifier⟩, h⟩
      · intro h
        obtain ⟨other, hbinds, h⟩ := h
        rw [hbinds.verifier] at hverifier
        cases hverifier
        exact h

/-- The record satisfies the requirement, whatever else the context requires. -/
def Counts (check : AdmissionCheck) (subject : CanonicalIdentifier)
    (requirement : CapabilityRequirement E) (record : ChallengeVerification) : Prop :=
  record.capabilityUri = requirement.uri ∧ ∃ verifier,
    Binds (E := E) check subject verifier record ∧
    verifyChallengeVerification E check record = .ok () ∧
    (requirement.level = .selfAttested ∨ requirement.trusts verifier = true ∧
      ∀ cap ∈ requirement.raw.retryCap, cap.admits record = true)

/-- Every record is verified or judged: no check of one is unavailable. -/
def Conclusive (E : TrustCrypto) (check : AdmissionCheck) (records : List ChallengeVerification) :
    Prop :=
  ∀ record ∈ records, ∀ e, verifyChallengeVerification E check record = .error e →
    e.isRecordRejection = true

theorem standing_satisfies_iff {requirement : CapabilityRequirement E}
    {checked : ChallengeVerification × Verdict} :
    standing requirement checked = .satisfies ↔
      checked.1.capabilityUri = requirement.uri ∧ ∃ verifier, checked.2 = .verified verifier ∧
        checked.1.passed = true ∧ (requirement.level = .selfAttested ∨
          requirement.trusts verifier = true ∧
            ∀ cap ∈ requirement.raw.retryCap, cap.admits checked.1 = true) := by
  obtain ⟨record, verdict⟩ := checked
  unfold standing
  by_cases huri : record.capabilityUri = requirement.uri
  · rw [if_neg (not_not.mpr huri)]
    cases verdict with
    | untrusted =>
      dsimp only
      split <;> simp
    | rejected e => cases e <;> simp
    | verified verifier =>
      dsimp only
      cases hpassed : record.passed with
      | false => simp
      | true =>
        cases hlevel : requirement.level with
        | selfAttested => simp [huri]
        | challengeVerified =>
          cases htrusts : requirement.trusts verifier with
          | false => simp [htrusts]
          | true =>
            cases hcap : requirement.raw.retryCap with
            | none => simp [huri, htrusts]
            | some cap => cases hadmits : cap.admits record <;> simp [huri, htrusts, hadmits]
  · rw [if_pos huri]
    simp [huri]

theorem scan_fst_iff (requirement : CapabilityRequirement E) (refusal : Option AdmissionError)
    (checked : List (ChallengeVerification × Verdict)) :
    (scan requirement refusal checked).1 = true ↔
      ∃ c ∈ checked, standing requirement c = .satisfies := by
  induction checked generalizing refusal with
  | nil => simp [scan]
  | cons c rest ih =>
    unfold scan
    cases hstanding : standing requirement c with
    | satisfies => simp [hstanding]
    | refused e => simp [hstanding, ih]
    | irrelevant => simp [hstanding, ih]

/-- What a candidate's check comes to where it is conclusive. -/
def verdictOf (requirements : CapabilityRequirements E) (check : AdmissionCheck)
    (subject : CanonicalIdentifier) (record : ChallengeVerification) : Option Verdict :=
  (candidate requirements record subject check.contextId).map (fun verify =>
    if verify then
      match verifyChallengeVerification E check record >>= fun _ =>
          CanonicalIdentifier.parse E record.verifier with
      | .ok verifier => .verified verifier
      | .error e => .rejected e
    else .untrusted)

theorem verdictOf_verified_iff {requirements : CapabilityRequirements E} {check : AdmissionCheck}
    {subject verifier : CanonicalIdentifier} {record : ChallengeVerification} :
    verdictOf requirements check subject record = some (.verified verifier) ↔
      candidate requirements record subject check.contextId = some true ∧
        verifyChallengeVerification E check record = .ok () ∧
        CanonicalIdentifier.parse E record.verifier = .ok verifier := by
  unfold verdictOf
  rw [Option.map_eq_some_iff]
  constructor
  · intro h
    obtain ⟨verify, hcand, hverdict⟩ := h
    cases verify with
    | false => cases hverdict
    | true =>
      rw [if_pos rfl] at hverdict
      split at hverdict
      · rename_i hok
        cases hverdict
        rw [bind_ok_iff, exists_unit_iff] at hok
        exact ⟨hcand, hok⟩
      · cases hverdict
  · intro h
    obtain ⟨hcand, hverify, hparse⟩ := h
    refine ⟨true, hcand, ?_⟩
    rw [if_pos rfl, hverify, hparse]
    rfl

/-- Where every check is conclusive all records are read. -/
theorem checkRecords_eq {requirements : CapabilityRequirements E} {check : AdmissionCheck}
    {subject : CanonicalIdentifier} {records : List ChallengeVerification}
    (h : Conclusive E check records) :
    checkRecords requirements check subject records = .ok (records.filterMap (fun record =>
      (verdictOf requirements check subject record).map (record, ·))) := by
  induction records with
  | nil => rfl
  | cons record records ih =>
    have hrest := ih (fun r hr => h r (List.mem_cons_of_mem _ hr))
    unfold checkRecords
    cases hcand : candidate requirements record subject check.contextId with
    | none =>
      have hnone : verdictOf requirements check subject record = none := by
        rw [verdictOf, hcand]
        rfl
      rw [List.filterMap_cons_none (by rw [hnone]; rfl)]
      exact hrest
    | some verify =>
      cases verify with
      | false =>
        have hsome : verdictOf requirements check subject record = some .untrusted := by
          rw [verdictOf, hcand]
          rfl
        rw [List.filterMap_cons_some (by rw [hsome]; rfl), hrest]
        rfl
      | true =>
        obtain ⟨id, hbinds, -⟩ := candidate_true_iff.mp hcand
        cases hverify : verifyChallengeVerification E check record with
        | error e =>
          have hsome : verdictOf requirements check subject record = some (.rejected e) := by
            rw [verdictOf, hcand, hverify]
            rfl
          have hrejected := h record List.mem_cons_self e hverify
          rw [List.filterMap_cons_some (by rw [hsome]; rfl)]
          simp [bind, Except.bind, pure, Except.pure, hrejected, hrest]
        | ok u =>
          have hsome := verdictOf_verified_iff.mpr ⟨hcand, hverify, hbinds.verifier⟩
          rw [List.filterMap_cons_some (by rw [hsome]; rfl)]
          simp [bind, Except.bind, pure, Except.pure, hbinds.verifier, hrest]

/-- A requirement is met by a record that counts, or by a claim where a claim is enough. -/
def Meets (check : AdmissionCheck) (subject : CanonicalIdentifier)
    (agentCapabilities : List CapabilityUri) (records : List ChallengeVerification)
    (requirement : CapabilityRequirement E) : Prop :=
  (∃ record ∈ records, Counts check subject requirement record) ∨
    requirement.level = .selfAttested ∧ requirement.raw.capability ∈ agentCapabilities

theorem checkRequirement_ok_iff {agentCapabilities : List CapabilityUri}
    {checked : List (ChallengeVerification × Verdict)} {requirement : CapabilityRequirement E} :
    checkRequirement agentCapabilities checked requirement = .ok () ↔
      (∃ c ∈ checked, standing requirement c = .satisfies) ∨
        requirement.level = .selfAttested ∧ requirement.raw.capability ∈ agentCapabilities := by
  have hscan := scan_fst_iff requirement none checked
  unfold checkRequirement
  dsimp only
  cases hfound : (scan requirement none checked).1 with
  | true =>
    rw [hfound] at hscan
    simp [hscan.mp rfl]
  | false =>
    rw [hfound] at hscan
    have hnone := mt hscan.mpr (by simp)
    cases hlevel : requirement.level <;> simp [hnone]

/-- Of the records that are read, one satisfies a requirement of the list exactly when one
counts: whether it was verified at all is decided by that requirement alone. -/
theorem exists_satisfies_iff {requirements : CapabilityRequirements E} {check : AdmissionCheck}
    {subject : CanonicalIdentifier} {records : List ChallengeVerification}
    {requirement : CapabilityRequirement E} (hmem : requirement ∈ requirements.entries) :
    (∃ c ∈ records.filterMap (fun record =>
        (verdictOf requirements check subject record).map (record, ·)),
      standing requirement c = .satisfies) ↔
      ∃ record ∈ records, Counts check subject requirement record := by
  constructor
  · intro h
    obtain ⟨c, hc, hsat⟩ := h
    obtain ⟨record, hrecord, hread⟩ := List.mem_filterMap.mp hc
    obtain ⟨verdict, hverdict, rfl⟩ := Option.map_eq_some_iff.mp hread
    obtain ⟨huri, verifier, rfl, -, hopen⟩ := standing_satisfies_iff.mp hsat
    obtain ⟨hcand, hverify, hparse⟩ := verdictOf_verified_iff.mp hverdict
    obtain ⟨id, hbinds, -⟩ := candidate_true_iff.mp hcand
    have hid : id = verifier := by
      have heq := hbinds.verifier.symm.trans hparse
      exact Except.ok.inj heq
    subst hid
    exact ⟨record, hrecord, huri, id, hbinds, hverify, hopen⟩
  · intro h
    obtain ⟨record, hrecord, huri, verifier, hbinds, hverify, hopen⟩ := h
    have hcand := candidate_true_iff.mpr ⟨verifier, hbinds, requirement, hmem, huri.symm,
      hopen.imp id And.left⟩
    have hverdict := verdictOf_verified_iff.mpr ⟨hcand, hverify, hbinds.verifier⟩
    refine ⟨(record, .verified verifier), List.mem_filterMap.mpr ⟨record, hrecord, ?_⟩, ?_⟩
    · rw [hverdict]
      rfl
    · exact standing_satisfies_iff.mpr ⟨huri, verifier, rfl, hbinds.passed, hopen⟩

/-- The decision, where every check is conclusive: the subject is an identifier and each
requirement is met. -/
theorem checkCapabilityRequirements_ok_iff {requirements : CapabilityRequirements E}
    {agentCapabilities : List CapabilityUri} {records : ChallengeVerifications}
    {check : AdmissionCheck} (h : Conclusive E check records.entries) :
    checkCapabilityRequirements requirements agentCapabilities records check = .ok () ↔
      check.subjectDid.isEmpty = false ∧ ∃ subject,
        CanonicalIdentifier.parse E check.subjectDid = .ok subject ∧
        ∀ requirement ∈ requirements.entries,
          Meets check subject agentCapabilities records.entries requirement := by
  simp only [checkCapabilityRequirements, bind_ok_iff, exists_unit_iff, require_ok_iff,
    mapError_ok_iff, checkRecords_eq h, Except.ok.injEq, checkEach_ok_iff, exists_eq_left',
    checkRequirement_ok_iff, Bool.not_eq_true']
  refine and_congr_right (fun _ => exists_congr (fun subject => and_congr_right (fun _ => ?_)))
  refine forall_congr' (fun requirement => forall_congr' (fun hmem => ?_))
  rw [exists_satisfies_iff hmem]
  rfl

/-- A record that counts for a stricter requirement counts for the one it replaces. -/
theorem Counts.of_tightens {check : AdmissionCheck} {subject : CanonicalIdentifier}
    {new old : CapabilityRequirement E} {record : ChallengeVerification}
    (htight : new.tightens old = true) (h : Counts check subject new record) :
    Counts check subject old record := by
  obtain ⟨huri, verifier, hbinds, hverify, hopen⟩ := h
  unfold CapabilityRequirement.tightens at htight
  split at htight
  · cases htight
  rename_i hsame
  simp only [ne_eq, decide_not, Bool.or_eq_true, Bool.not_eq_true', decide_eq_false_iff_not,
    decide_eq_true_eq, not_or, not_not, not_lt] at hsame
  obtain ⟨hcapability, hlevel⟩ := hsame
  have holduri : record.capabilityUri = old.uri := by
    rw [huri, CapabilityRequirement.uri, CapabilityRequirement.uri, hcapability]
  refine ⟨holduri, verifier, hbinds, hverify, ?_⟩
  cases hold : old.level with
  | selfAttested => exact .inl rfl
  | challengeVerified =>
    right
    have hnew : new.level ≠ .selfAttested := by
      intro hnew
      rw [hnew, hold] at hlevel
      exact absurd hlevel (by decide)
    obtain ⟨htrusts, hcaps⟩ := hopen.resolve_left hnew
    rw [Bool.and_eq_true] at htight
    obtain ⟨hnarrowed, hcap⟩ := htight
    constructor
    · rw [hold] at hnarrowed
      obtain ⟨id, hid, hkey⟩ := List.any_eq_true.mp htrusts
      have hin : ∀ x ∈ new.trusted, ∃ y ∈ old.trusted, x.same y = true := by
        simpa using hnarrowed
      obtain ⟨other, hother, hsame⟩ := hin id hid
      refine List.any_eq_true.mpr ⟨other, hother, ?_⟩
      simp only [CanonicalIdentifier.same, decide_eq_true_eq] at hkey hsame ⊢
      exact hkey.trans hsame
    · intro oldCap holdCap
      rw [Option.mem_def.mp holdCap] at hcap
      cases hnewCap : new.raw.retryCap with
      | none =>
        rw [hnewCap] at hcap
        cases hcap
      | some newCap =>
        rw [hnewCap] at hcap
        exact RetryCap.admits_of_stricter hcap (hcaps newCap hnewCap)

theorem Meets.of_tightens {check : AdmissionCheck} {subject : CanonicalIdentifier}
    {agentCapabilities : List CapabilityUri} {records : List ChallengeVerification}
    {new old : CapabilityRequirement E} (htight : new.tightens old = true)
    (h : Meets check subject agentCapabilities records new) :
    Meets check subject agentCapabilities records old := by
  obtain ⟨record, hrecord, hcounts⟩ | ⟨hlevel, hclaims⟩ := h
  · exact .inl ⟨record, hrecord, hcounts.of_tightens htight⟩
  · unfold CapabilityRequirement.tightens at htight
    split at htight
    · cases htight
    rename_i hsame
    simp only [ne_eq, decide_not, Bool.or_eq_true, Bool.not_eq_true', decide_eq_false_iff_not,
      decide_eq_true_eq, not_or, not_not, not_lt] at hsame
    refine .inr ⟨?_, hsame.1 ▸ hclaims⟩
    cases hold : old.level with
    | selfAttested => rfl
    | challengeVerified =>
      rw [hold, hlevel] at hsame
      exact absurd hsame.2 (by decide)

/-- A tightening only restricts admission; the decision reads neither the order of the
requirements nor that of the records; and a further record never turns it down. -/
theorem tightening_restricts_admission (check : AdmissionCheck)
    (agentCapabilities : List CapabilityUri) (records : ChallengeVerifications)
    (h : Conclusive E check records.entries) :
    (∀ new old : CapabilityRequirements E, new.isTighteningOf old = true →
      checkCapabilityRequirements new agentCapabilities records check = .ok () →
      checkCapabilityRequirements old agentCapabilities records check = .ok ()) ∧
    (∀ (requirements reordered : CapabilityRequirements E) (shuffled : ChallengeVerifications),
      requirements.entries.Perm reordered.entries → records.entries.Perm shuffled.entries →
      (checkCapabilityRequirements requirements agentCapabilities records check = .ok () ↔
        checkCapabilityRequirements reordered agentCapabilities shuffled check = .ok ())) ∧
    ∀ (requirements : CapabilityRequirements E) (record : ChallengeVerification)
      (more : ChallengeVerifications), more.entries.Perm (record :: records.entries) →
      Conclusive E check more.entries →
      checkCapabilityRequirements requirements agentCapabilities records check = .ok () →
      checkCapabilityRequirements requirements agentCapabilities more check = .ok () := by
  refine ⟨?_, ?_, ?_⟩
  · intro new old htight hok
    rw [checkCapabilityRequirements_ok_iff h] at hok ⊢
    obtain ⟨hsubject, subject, hparse, hmet⟩ := hok
    refine ⟨hsubject, subject, hparse, ?_⟩
    intro o ho
    obtain ⟨n, hn, htight⟩ := List.any_eq_true.mp (List.all_eq_true.mp htight o ho)
    exact (hmet n hn).of_tightens htight
  · intro requirements reordered shuffled hreqs hrecords
    have h' : Conclusive E check shuffled.entries :=
      fun r hr => h r (hrecords.mem_iff.mpr hr)
    rw [checkCapabilityRequirements_ok_iff h, checkCapabilityRequirements_ok_iff h']
    simp only [Meets, hreqs.mem_iff, hrecords.mem_iff]
  · intro requirements record more hmore h' hok
    rw [checkCapabilityRequirements_ok_iff h] at hok
    rw [checkCapabilityRequirements_ok_iff h']
    obtain ⟨hsubject, subject, hparse, hmet⟩ := hok
    refine ⟨hsubject, subject, hparse, ?_⟩
    intro r hr
    obtain ⟨c, hc, hcounts⟩ | hclaims := hmet r hr
    · exact .inl ⟨c, hmore.mem_iff.mpr (List.mem_cons_of_mem _ hc), hcounts⟩
    · exact .inr hclaims

end Check

/-- An agent and two challengers, with every digest fixed. -/
def sampleCrypto : TrustCrypto where
  extractPublicKeyFromDid did :=
    if did = "did:dht:agent" then .ok 1
    else if did = "did:dht:grader" then .ok 2
    else if did = "did:dht:proctor" then .ok 3
    else .error "not a key"
  challengeVerificationId _ := .ok 7
  challengeVerificationSigningDigest _ := .ok 8
  validateCapabilityUri uri :=
    if uri = "scp:capability:code.review/v1" then some (.protocol "code.review" 1) else none
  validateDefinition _ := .ok ()
  definitionDigest _ := .ok 9
  verifyEd25519Signature key digest _ :=
    if key = 2 ∧ digest = 8 then .ok () else .error "no match"

def sampleCheck : AdmissionCheck where
  contextId := "context"
  subjectDid := "did:dht:agent"
  resolveActiveKey _ := .ok 2
  definition _ := .ok ⟨"scp:capability:code.review/v1", .total 4, 8000, 2, 60, "review"⟩
  now := 5000

def sampleRecords : ChallengeVerifications where
  entries := [{
    verificationId := 7, verifier := "did:dht:grader", subject := "did:dht:agent",
    capabilityUri := "scp:capability:code.review/v1", definitionDigest := 9, suiteDigest := 0,
    challengeId := 0, attempt := 1, responseDigest := 0, maxRetries := 1, cooldownSecs := 60,
    passThresholdBps := 8000, minCategoryCases := 0, passed := true, score := 9000,
    testCount := 10, passCount := 9, challengeCreatedAt := 1000, challengeExpiresAt := 2000,
    timestamp := 1500, expiresAt := 9000, contextId := "context", verifierSignature := [] }]
  bounded := by decide

/-- Reviewers graded by anyone the list names. -/
def sampleRequirements (verifiers : List String) (trusted : List CanonicalIdentifier)
    (cap : Option RetryCap) (valid : trustedOf sampleCrypto
      ⟨.protocol "code.review" 1, .challengeVerified, verifiers, cap⟩ = .ok trusted) :
    CapabilityRequirements sampleCrypto where
  entries := [⟨⟨.protocol "code.review" 1, .challengeVerified, verifiers, cap⟩, trusted, valid⟩]
  bounded := by simp [maxCapabilityRequirementsPerContext]

theorem sampleRecords_verified :
    ∀ record ∈ sampleRecords.entries,
      verifyChallengeVerification sampleCrypto sampleCheck record = .ok () := by
  decide +kernel

def sampleNew : CapabilityRequirements sampleCrypto :=
  sampleRequirements ["did:dht:grader"] [⟨"did:dht:grader", 2⟩] (some ⟨1, 30⟩)
    (by decide +kernel)

def sampleOld : CapabilityRequirements sampleCrypto :=
  sampleRequirements ["did:dht:grader", "did:dht:proctor"]
    [⟨"did:dht:grader", 2⟩, ⟨"did:dht:proctor", 3⟩] none (by decide +kernel)

theorem tightening_restricts_admission_sample :
    sampleNew.isTighteningOf sampleOld = true ∧
      checkCapabilityRequirements sampleNew [] sampleRecords sampleCheck = .ok () ∧
      checkCapabilityRequirements sampleOld [] sampleRecords sampleCheck = .ok () := by
  have hconclusive : Conclusive sampleCrypto sampleCheck sampleRecords.entries := by
    intro record hrecord e he
    rw [sampleRecords_verified record hrecord] at he
    cases he
  have htight : sampleNew.isTighteningOf sampleOld = true := by decide +kernel
  have hnew : checkCapabilityRequirements sampleNew [] sampleRecords sampleCheck = .ok () := by
    decide +kernel
  refine ⟨htight, hnew, ?_⟩
  exact (tightening_restricts_admission sampleCheck [] sampleRecords hconclusive).1
    sampleNew sampleOld htight hnew

end ScpCore.Admission
