import ScpCore.UcanValidate

/-! The diagnostic evaluation of a UCAN token. It runs the checks of the validation stage by
stage, asks the nonce tracker without recording, and reports how far the token came. -/

namespace ScpCore.Ucan

open Caveats

/-- A context together with the two halves of its tracker's `check_and_record`. -/
structure TrackedContext (Key : Type) extends ValidationContext Key where
  checkReplay : String → ℕ → Except UcanError Unit
  record : String → ℕ → Except UcanError Unit
  tracked : checkAndRecord = fun nonce expiry => do
    checkReplay nonce expiry
    record nonce expiry

structure CapabilityValidation where
  tokensValid : Bool
  signaturesValid : Bool
  withinCeiling : Bool
  nonceValid : Bool
  notRevoked : Bool
  timeBoundsValid : Bool
  deriving DecidableEq

namespace CapabilityValidation

/-- `NONE`: no stage has passed. -/
def noneValid : CapabilityValidation := ⟨false, false, false, false, false, false⟩

def allValid : CapabilityValidation := ⟨true, true, true, true, true, true⟩

/-- The fields in the order of the stages. -/
def fields (v : CapabilityValidation) : List Bool :=
  [v.tokensValid, v.signaturesValid, v.withinCeiling, v.nonceValid, v.notRevoked,
    v.timeBoundsValid]

end CapabilityValidation

section Evaluate
variable {Key : Type} (ctx : TrackedContext Key)

/-- Steps 2 to 7; the grant is matched only against a capability that is asked for. -/
def signatureStage (token : UcanToken) (requiredCapability : Option CapabilityUri)
    (grantedCaps : List CapabilityUri) : Except UcanError Unit := do
  verifySignature ctx.toValidationContext token
  let rootIssuer ← verifyDelegationChain ctx.toValidationContext token
  verifyRootIssuer rootIssuer ctx.contextCreatorDid
  verifyAudience token ctx.presentingAgentDid
  validateKeyScope token
  requiredCapability.elim (.ok ()) (checkCapabilityMatch grantedCaps)
  enforceUcanCategoryA token grantedCaps
  verifyLeafOutletStemConsistency ctx.toValidationContext token

/-- Steps 11 and 11b. -/
def timeStage (token : UcanToken) : Bool :=
  (verifyExpiry ctx.toValidationContext token).toOption.isSome &&
    (ctx.resolveCaveats token).all
      (fun caveats => (verifyCaveatTimeBox caveats ctx.now).toOption.isSome)

/-- The stages after the parse, each run only where the one before it has passed. -/
def evaluateStages (token : UcanToken) (requiredCapability : Option CapabilityUri)
    (grantedCaps : List CapabilityUri) : CapabilityValidation :=
  let result := { CapabilityValidation.noneValid with tokensValid := true }
  if !(signatureStage ctx token requiredCapability grantedCaps).toOption.isSome then result
  else
  let result := { result with signaturesValid := true }
  if !(verifyCeilingCompliance grantedCaps ctx.ceiling).toOption.isSome then result
  else
  let result := { result with withinCeiling := true }
  if !(ctx.checkReplay token.payload.nnc token.payload.exp).toOption.isSome then result
  else
  let result := { result with nonceValid := true }
  if ctx.isRevoked (ctx.computeRevocationCid token.encoded) then result
  else
  let result := { result with notRevoked := true }
  if timeStage ctx token then { result with timeBoundsValid := true } else result

def evaluateUcan (token : UcanToken) (requiredCapability : Option CapabilityUri) :
    CapabilityValidation :=
  if !token.header.validate.toOption.isSome then .noneValid
  else match parseGrantedCaps token with
    | .error _ => .noneValid
    | .ok grantedCaps => evaluateStages ctx token requiredCapability grantedCaps

variable {ctx} {token : UcanToken} {requiredCapability : Option CapabilityUri}
  {grantedCaps : List CapabilityUri}

theorem isSome_iff_ok {ε : Type} {x : Except ε Unit} : x.toOption.isSome = true ↔ x = .ok () := by
  cases x <;> simp [Except.toOption]

theorem evaluateStages_fields :
    ∃ n ≤ 6, (evaluateStages ctx token requiredCapability grantedCaps).fields =
      List.replicate n true ++ List.replicate (6-n) false := by
  unfold evaluateStages
  -- The stage that stops the evaluation says how many fields are true.
  split
  · exact ⟨1, by omega, rfl⟩
  split
  · exact ⟨2, by omega, rfl⟩
  split
  · exact ⟨3, by omega, rfl⟩
  split
  · exact ⟨4, by omega, rfl⟩
  split
  · exact ⟨6, by omega, rfl⟩
  · exact ⟨5, by omega, rfl⟩

/-- The true fields are the first ones. -/
theorem evaluateUcan_fields (ctx : TrackedContext Key) (token : UcanToken)
    (requiredCapability : Option CapabilityUri) :
    ∃ n ≤ 6, (evaluateUcan ctx token requiredCapability).fields =
      List.replicate n true ++ List.replicate (6-n) false := by
  unfold evaluateUcan
  split
  · exact ⟨0, by omega, rfl⟩
  · split
    · exact ⟨0, by omega, rfl⟩
    · exact evaluateStages_fields

/-- Without a capability to match, the first stage passes wherever it does with one. -/
theorem signatureStage_none (h : signatureStage ctx token requiredCapability grantedCaps = .ok ()) :
    signatureStage ctx token none grantedCaps = .ok () := by
  simp only [signatureStage, bind_ok_iff, exists_unit_iff] at h ⊢
  obtain ⟨hsigned, root, hchain, hroot, haud, hscope, _, hcategory, hstem⟩ := h
  exact ⟨hsigned, root, hchain, hroot, haud, hscope, rfl, hcategory, hstem⟩

/-- A first stage that passes more often gives no field less. -/
theorem evaluateStages_mono {other : Option CapabilityUri}
    (h : (signatureStage ctx token requiredCapability grantedCaps).toOption.isSome = true →
      (signatureStage ctx token other grantedCaps).toOption.isSome = true) :
    List.Forall₂ (fun a b => a = true → b = true)
      (evaluateStages ctx token requiredCapability grantedCaps).fields
      (evaluateStages ctx token other grantedCaps).fields := by
  unfold evaluateStages
  revert h
  -- Only which stages pass matters, and that is six Booleans.
  generalize (signatureStage ctx token requiredCapability grantedCaps).toOption.isSome = sigs
  generalize (signatureStage ctx token other grantedCaps).toOption.isSome = sigs'
  generalize (verifyCeilingCompliance grantedCaps ctx.ceiling).toOption.isSome = ceiling
  generalize (ctx.checkReplay token.payload.nnc token.payload.exp).toOption.isSome = nonce
  generalize ctx.isRevoked (ctx.computeRevocationCid token.encoded) = revoked
  generalize timeStage ctx token = time
  revert sigs sigs' ceiling nonce revoked time
  decide

theorem evaluateStages_all_iff :
    evaluateStages ctx token requiredCapability grantedCaps = .allValid ↔
      signatureStage ctx token requiredCapability grantedCaps = .ok () ∧
      verifyCeilingCompliance grantedCaps ctx.ceiling = .ok () ∧
      ctx.checkReplay token.payload.nnc token.payload.exp = .ok () ∧
      ctx.isRevoked (ctx.computeRevocationCid token.encoded) = false ∧
      timeStage ctx token = true := by
  rw [← isSome_iff_ok, ← isSome_iff_ok, ← isSome_iff_ok]
  unfold evaluateStages
  generalize (signatureStage ctx token requiredCapability grantedCaps).toOption.isSome = sigs
  generalize (verifyCeilingCompliance grantedCaps ctx.ceiling).toOption.isSome = ceiling
  generalize (ctx.checkReplay token.payload.nnc token.payload.exp).toOption.isSome = nonce
  generalize ctx.isRevoked (ctx.computeRevocationCid token.encoded) = revoked
  generalize timeStage ctx token = time
  revert sigs ceiling nonce revoked time
  decide

theorem timeStage_iff : timeStage ctx token = true ↔
    verifyExpiry ctx.toValidationContext token = .ok () ∧
      (ctx.resolveCaveats token).elim (.ok ()) (fun caveats =>
        (verifyCaveatTimeBox caveats ctx.now).mapError UcanError.caveatTimeBoxViolation) =
          .ok () := by
  rw [timeStage, Bool.and_eq_true, isSome_iff_ok]
  cases ctx.resolveCaveats token with
  | none => simp
  | some caveats =>
    rw [Option.all_some, isSome_iff_ok, Option.elim_some, mapError_ok_iff]

/-- The validation asks for what the stages ask for, in another order: it parses the granted
capabilities after the chain, and records the nonce where the evaluation only probes it. -/
theorem validateUcan_ok_iff_stages {c : CapabilityUri}
    (hrecord : ctx.checkReplay token.payload.nnc token.payload.exp = .ok () →
      ctx.checkAndRecord token.payload.nnc token.payload.exp = .ok ()) :
    validateUcan ctx.toValidationContext token c = .ok () ↔
      token.header.validate = .ok () ∧ ∃ caps, parseGrantedCaps token = .ok caps ∧
        evaluateStages ctx token (some c) caps = .allValid := by
  have hnonce : ctx.checkAndRecord token.payload.nnc token.payload.exp = .ok () ↔
      ctx.checkReplay token.payload.nnc token.payload.exp = .ok () := by
    refine ⟨?_, hrecord⟩
    intro h
    rw [ctx.tracked, bind_ok_iff, exists_unit_iff] at h
    exact h.1
  simp only [evaluateStages_all_iff, timeStage_iff, validateUcan, signatureStage, bind_ok_iff,
    exists_unit_iff, mapError_ok_iff, hnonce, Option.elim_some, require_ok_iff,
    Bool.not_eq_true']
  constructor
  · rintro ⟨hheader, hsigned, root, hchain, hroot, haud, hscope, caps, hcaps, hmatch, hcategory,
      hstem, hceiling, hfresh, hrevoked, htime⟩
    exact ⟨hheader, caps, hcaps, ⟨hsigned, root, hchain, hroot, haud, hscope, hmatch, hcategory,
      hstem⟩, hceiling, hfresh, hrevoked, htime⟩
  · rintro ⟨hheader, caps, hcaps, ⟨hsigned, root, hchain, hroot, haud, hscope, hmatch, hcategory,
      hstem⟩, hceiling, hfresh, hrevoked, htime⟩
    exact ⟨hheader, hsigned, root, hchain, hroot, haud, hscope, caps, hcaps, hmatch, hcategory,
      hstem, hceiling, hfresh, hrevoked, htime⟩

/-- Without a challenge no field is less. -/
theorem evaluateUcan_none_mono (ctx : TrackedContext Key) (token : UcanToken)
    (requiredCapability : Option CapabilityUri) :
    List.Forall₂ (fun a b => a = true → b = true)
      (evaluateUcan ctx token requiredCapability).fields (evaluateUcan ctx token none).fields := by
  unfold evaluateUcan
  have hsame : List.Forall₂ (fun a b => a = true → b = true)
      CapabilityValidation.noneValid.fields CapabilityValidation.noneValid.fields := by decide
  -- The header and the parse do not look at the challenge.
  split
  · exact hsame
  · split
    · exact hsame
    · apply evaluateStages_mono
      rw [isSome_iff_ok, isSome_iff_ok]
      exact signatureStage_none

/-- All fields are true of exactly the tokens that the validation accepts; the true fields are
always the first ones; and a token that meets a challenge is no worse off without it. -/
theorem evaluateUcan_agrees (ctx : TrackedContext Key) (token : UcanToken) (c : CapabilityUri)
    (hrecord : ∀ nonce expiry, ctx.checkReplay nonce expiry = .ok () →
      ctx.checkAndRecord nonce expiry = .ok ()) :
    (evaluateUcan ctx token (some c) = .allValid ↔
      validateUcan ctx.toValidationContext token c = .ok ()) ∧
    (∀ requiredCapability, ∃ n ≤ 6, (evaluateUcan ctx token requiredCapability).fields =
      List.replicate n true ++ List.replicate (6-n) false) ∧
    List.Forall₂ (fun a b => a = true → b = true) (evaluateUcan ctx token (some c)).fields
      (evaluateUcan ctx token none).fields := by
  refine ⟨?_, evaluateUcan_fields ctx token, evaluateUcan_none_mono ctx token (some c)⟩
  rw [validateUcan_ok_iff_stages (hrecord _ _), evaluateUcan]
  cases hheader : token.header.validate with
  | error e => exact ⟨nofun, fun h => nomatch h.1⟩
  | ok u =>
    cases hcaps : parseGrantedCaps token with
    | error e => exact ⟨nofun, fun ⟨_, _, h, _⟩ => nomatch h⟩
    | ok caps => simp [Except.toOption]

end Evaluate

/-- A sample context whose tracker records what its probe lets pass. -/
def trackedContext (proofs : List UcanToken) : TrackedContext String :=
  { sampleContext proofs with
    checkReplay := fun _ _ => .ok ()
    record := fun _ _ => .ok ()
    tracked := rfl }

/-- What Alice passes on to Bob comes through all stages. -/
theorem delegated_allValid :
    evaluateUcan (trackedContext [firstGrant, secondGrant]) (delegated ["h.1.s"])
      (some ⟨some "c1", "messages", "write"⟩) = .allValid :=
  (evaluateUcan_agrees (trackedContext [firstGrant, secondGrant]) (delegated ["h.1.s"])
    ⟨some "c1", "messages", "write"⟩ (fun _ _ _ => rfl)).1.mpr (by decide +kernel)

end ScpCore.Ucan
