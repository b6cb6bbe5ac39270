import ScpCore.UcanChain
import ScpCore.SpendingBudget

/-! Validation of a spending UCAN. The token delegates from an actor to itself, and the walk
over its proofs is the one for context capabilities: it takes a second token of the same
issuer for a cycle. -/

namespace ScpCore.Spending

open Ucan Schema

/-- The entries of a struct: an object by its field names, or an array in field order. A
closed struct refuses an object with other names. -/
def structFields (names : List String) (closed : Bool) : Json → Option (List Json)
  | .object members =>
    -- A struct that denies unknown fields.
    if closed && members.any (·.1 ∉ names) then none else names.mapM (members.lookup ·)
  | .array items => if items.length = names.length then some items else none
  | _ => none

/-- An integer of less than `bound`. -/
def readInt (bound : ℕ) : Json → Option ℕ
  | .number n => n.asU64.filter (· < bound)
  | _ => none

def readU64 (json : Json) : Option UInt64 := (readInt (2^64) json).map UInt64.ofNat

def readByte (json : Json) : Option UInt8 := (readInt (2^8) json).map UInt8.ofNat

def CurrencyCode.fromValue : Json → Option CurrencyCode
  | .array [b0, b1, b2, b3] => do
    some ⟨← readByte b0, ← readByte b1, ← readByte b2, ← readByte b3⟩
  | _ => none

/-- `Duration::new`: whole seconds among the nanoseconds are carried. -/
def Duration.new (secs nanos : ℕ) : Duration :=
  ⟨UInt64.ofNat (secs+nanos/10^9), UInt32.ofNat (nanos%10^9), by
    rw [UInt32.toNat_ofNat_of_lt']
    · exact Nat.mod_lt _ (by norm_num)
    · exact (Nat.mod_lt _ (by norm_num)).trans (by norm_num)⟩

def Duration.fromValue (json : Json) : Option Duration := do
  match ← structFields ["secs", "nanos"] true json with
  | [secs, nanos] =>
    let s ← readInt (2^64) secs
    let n ← readInt (2^32) nanos
    if s+n/10^9 < 2^64 then some (Duration.new s n) else none
  | _ => none

def readAdapters : Json → Option (List String)
  | .array items => items.mapM Json.asStr
  | _ => none

def SpendingCapability.fromValue (json : Json) : Option SpendingCapability := do
  match ← structFields
      ["max_per_action", "max_total", "currency", "time_window", "allowed_adapters"] false json with
  | [perAction, total, currency, window, adapters] =>
    some ⟨← readU64 perAction, ← readU64 total, ← CurrencyCode.fromValue currency,
      ← Duration.fromValue window, ← readAdapters adapters⟩
  | _ => none

def SpendingCapability.fromUcanToken (token : UcanToken) :
    Except SpendingError SpendingCapability := do
  let fct ← okOr token.payload.fct (.spendingCapabilityRequired .noFacts)
  let capValue ← okOr ((fct.asObject).bind (·.lookup "spending_capability"))
    (.spendingCapabilityRequired .noCapabilityFact)
  okOr (SpendingCapability.fromValue capValue) (.spendingCapabilityRequired .unreadableCapability)

def spendingUriPrefix_ : List Char := "scp:spending:".toList

inductive SpendingScope
  | context (id : String)
  | global
  deriving DecidableEq

def SpendingScope.parse (uri : String) : Except SpendingError SpendingScope := do
  let suffix ← okOr (stripPrefix spendingUriPrefix_ uri.toList) (.invalidResourceUri uri)
  require (suffix ≠ []) (.invalidResourceUri uri)
  if suffix = ['*'] then pure .global else pure (.context (String.ofList suffix))

def SpendingScope.coversContext (contextId : String) : SpendingScope → Bool
  | .global => true
  | .context id => id = contextId

def isSpending (att : Attenuation) : Bool :=
  (stripPrefix spendingUriPrefix_ att.with_.toList).isSome && att.can = "spend"

/-- The first spending attestation of a token. -/
def spendingAttestation (token : UcanToken) : Option Attenuation := token.payload.att.find? isSpending

/-- The lifetime is measured from now, and where that is too long from `nbf`. -/
def checkLifetime (token : UcanToken) (now : ℕ) : Except SpendingError Unit :=
  if maxExpirySecs < token.payload.exp-now then
    require (token.payload.exp-token.payload.nbf.getD now ≤ maxExpirySecs)
      (.expiryTooLong (token.payload.exp-token.payload.nbf.getD now) maxExpirySecs)
  else .ok ()

def validateSpendingUcan (token : UcanToken) (contextId : String)
    (parentCapability : Option SpendingCapability) (now : ℕ) :
    Except SpendingError SpendingCapability := do
  let spendingAtt ← okOr (spendingAttestation token)
    (.spendingCapabilityRequired .noSpendingAttestation)
  let scope ← SpendingScope.parse spendingAtt.with_
  require (scope.coversContext contextId) (.scopeNotCovered spendingAtt.with_ contextId)
  let capability ← SpendingCapability.fromUcanToken token
  checkLifetime token now
  parentCapability.elim (.ok ()) (fun parent => validateSpendingAttenuation parent capability)
  pure capability

structure SpendingUcanCheck where
  token : UcanToken
  contextId : String
  actorDid : String
  parentCapability : Option SpendingCapability
  deriving DecidableEq

section Signed
variable {Key : Type} (ctx : ValidationContext Key)
  (checkReplay : String → ℕ → Except UcanError Unit) (check : SpendingUcanCheck)

/-- `TokenNbCaveatResolver`: the caveats of a token are its own `nb`. -/
def readingNb (ctx : ValidationContext Key) : ValidationContext Key :=
  { ctx with resolveCaveats := fun token => token.payload.nb }

def validateSpendingUcanSigned : Except SpendingError SpendingCapability := do
  check.token.header.validate.mapError .ucan
  -- A spending token is issued by the actor to itself.
  require (check.token.payload.iss = check.actorDid)
    (.ucan (.invalidIssuer check.actorDid check.token.payload.iss))
  require (check.token.payload.aud = check.actorDid)
    (.ucan (.audienceMismatch check.actorDid check.token.payload.aud))
  (validateKeyScope check.token).mapError .ucan
  -- The walk over the proofs is the one of every UCAN.
  let rootIssuer ← (verifyDelegationChain (readingNb ctx) check.token).mapError .ucan
  require (rootIssuer = check.actorDid) (.ucan (.invalidIssuer check.actorDid rootIssuer))
  (verifySignature ctx check.token).mapError .ucan
  (verifyExpiry ctx check.token).mapError (fun e => .ucan (.expiry e))
  let revocationCid := ctx.computeRevocationCid check.token.encoded
  require (!ctx.isRevoked revocationCid) (.ucan (.tokenRevoked revocationCid))
  (checkReplay check.token.payload.nnc check.token.payload.exp).mapError .ucan
  validateSpendingUcan check.token check.contextId check.parentCapability ctx.now

/-- All checks but the walk over the proofs. -/
structure OtherChecks (capability : SpendingCapability) : Prop where
  header : check.token.header.validate = .ok ()
  issuer : check.token.payload.iss = check.actorDid
  audience : check.token.payload.aud = check.actorDid
  keyScope : validateKeyScope check.token = .ok ()
  signed : verifySignature ctx check.token = .ok ()
  timely : verifyExpiry ctx check.token = .ok ()
  unrevoked : ctx.isRevoked (ctx.computeRevocationCid check.token.encoded) = false
  fresh : checkReplay check.token.payload.nnc check.token.payload.exp = .ok ()
  spending : validateSpendingUcan check.token check.contextId check.parentCapability ctx.now =
    .ok capability

variable {ctx checkReplay check} {capability : SpendingCapability}

theorem validateSpendingUcanSigned_ok_iff :
    validateSpendingUcanSigned ctx checkReplay check = .ok capability ↔
      OtherChecks ctx checkReplay check capability ∧
        verifyDelegationChain (readingNb ctx) check.token = .ok check.actorDid := by
  simp only [validateSpendingUcanSigned, bind_ok_iff, exists_unit_iff, mapError_ok_iff,
    require_ok_iff, decide_eq_true_eq]
  constructor
  · intro h
    obtain ⟨hheader, hiss, haud, hscope, root, hchain, hroot, hsigned, htimely, hrevoked, hfresh,
      hspending⟩ := h
    rw [hroot] at hchain
    exact ⟨⟨hheader, hiss, haud, hscope, hsigned, htimely, by simpa using hrevoked, hfresh,
      hspending⟩, hchain⟩
  · rintro ⟨h, hchain⟩
    exact ⟨h.header, h.issuer, h.audience, h.keyScope, check.actorDid, hchain, rfl, h.signed,
      h.timely, by simpa using h.unrevoked, h.fresh, h.spending⟩

end Signed

section Chain
variable {Key : Type}

/-- A proof of a spending token that is itself a good spending token of the actor, over the
same scope and with a capability that the child's narrows. -/
structure SpendingParent (ctx : ValidationContext Key) (actorDid : String)
    (child parent : UcanToken) : Prop where
  issuer : parent.payload.iss = actorDid
  audience : parent.payload.aud = actorDid
  keyScope : extractKeyScope parent.payload = some parent.header.kidOrActive
  signed : verifySignature ctx parent = .ok ()
  timely : verifyExpiry ctx parent = .ok ()
  unrevoked : ctx.isRevoked (ctx.computeRevocationCid parent.encoded) = false
  nb : parent.payload.nb = none
  scope : ∃ att att', spendingAttestation child = some att ∧
    spendingAttestation parent = some att' ∧ att'.with_ = att.with_
  narrows : ∃ p c, SpendingCapability.fromUcanToken parent = .ok p ∧
    SpendingCapability.fromUcanToken child = .ok c ∧ validateSpendingAttenuation p c = .ok ()

/-- The proofs of a token name a finite chain of such parents. -/
inductive SpendingChain (ctx : ValidationContext Key) (actorDid : String) : UcanToken → Prop
  | root {token : UcanToken} (h : token.payload.prf = []) : SpendingChain ctx actorDid token
  | step {token parent : UcanToken} {cid : String} (hprf : token.payload.prf = [cid])
      (hparent : ctx.resolveProof cid = .ok parent)
      (h : SpendingParent ctx actorDid token parent) (rest : SpendingChain ctx actorDid parent) :
      SpendingChain ctx actorDid token

variable {ctx : ValidationContext Key} {checkReplay : String → ℕ → Except UcanError Unit}
  {check : SpendingUcanCheck} {capability : SpendingCapability}

/-- The walk refuses a proof of the token's own issuer. -/
theorem chain_refuses_own_issuer {token parent : UcanToken} (hproof : IsProof ctx token parent)
    (hiss : parent.payload.iss = token.payload.iss) (root : String) :
    verifyDelegationChain ctx token ≠ .ok root := by
  intro h
  obtain ⟨seen', hwalk⟩ := verifyDelegationChain_ok_iff.mp h
  -- The walk starts with the token's issuer among those it has met.
  obtain ⟨_, _, _, hnew, _⟩ := isProof_of_walk hwalk hproof
  exact hnew (by rw [hiss]; exact List.mem_cons_self)

/-- A spending token that passes all other checks, with a good chain of spending tokens above
it, is accepted exactly where that chain is empty. -/
theorem spending_token_usable_iff (hchecks : OtherChecks ctx checkReplay check capability)
    (hchain : SpendingChain ctx check.actorDid check.token) :
    validateSpendingUcanSigned ctx checkReplay check = .ok capability ↔
      check.token.payload.prf = [] := by
  rw [validateSpendingUcanSigned_ok_iff]
  constructor
  · intro ⟨_, hwalk⟩
    cases hchain with
    | root h => exact h
    | step hprf hparent h _ =>
      exfalso
      -- The parent's issuer is the actor, as the token's is.
      have hproof : IsProof (readingNb ctx) check.token _ :=
        ⟨_, by rw [hprf]; exact List.mem_cons_self, hparent⟩
      exact chain_refuses_own_issuer hproof (h.issuer.trans hchecks.issuer.symm) _ hwalk
  · intro hroot
    refine ⟨hchecks, ?_⟩
    rw [verifyDelegationChain, if_pos hroot, hchecks.issuer]

end Chain

-- An agent's token that spends a cent a minute, under one of a cent an hour.

/-- The facts of a sample spending token. -/
def spendingFacts (maxTotal secs : ℤ) : Json :=
  .object [("scp_key_scope", .string "#agent"),
    ("spending_capability", .object [("allowed_adapters", .array []),
      ("currency", .array [.number (.int 85), .number (.int 83), .number (.int 68),
        .number (.int 0)]),
      ("max_per_action", .number (.int 1)), ("max_total", .number (.int maxTotal)),
      ("time_window", .object [("nanos", .number (.int 0)), ("secs", .number (.int secs))])])]

def spendingToken (encoded : String) (prf : List String) (maxTotal secs : ℤ) : UcanToken where
  header := ⟨"EdDSA", "JWT", "0.10.0", some "#agent"⟩
  payload := ⟨"alice", "alice", 3600, none, "0-00", [⟨"scp:spending:c1", "spend"⟩], prf,
    some (spendingFacts maxTotal secs), none⟩
  signature := [1]
  encoded := encoded

def hourlyToken : UcanToken := spendingToken "h.1.s" [] 60 3600

def minuteToken : UcanToken := spendingToken "h.2.s" ["h.1.s"] 1 60

def spendingCheck (token : UcanToken) : SpendingUcanCheck := ⟨token, "c1", "alice", none⟩

theorem hourlyToken_otherChecks :
    OtherChecks (sampleContext [hourlyToken]) (fun _ _ => .ok ()) (spendingCheck hourlyToken)
      (sampleCapability 60 3600) := by
  constructor <;> decide +kernel

theorem minuteToken_otherChecks :
    OtherChecks (sampleContext [hourlyToken]) (fun _ _ => .ok ()) (spendingCheck minuteToken)
      (sampleCapability 1 60) := by
  constructor <;> decide +kernel

theorem minuteToken_chain : SpendingChain (sampleContext [hourlyToken]) "alice" minuteToken := by
  apply @SpendingChain.step _ _ _ minuteToken hourlyToken "h.1.s"
  · rfl
  · decide +kernel
  · refine ⟨by decide, by decide, by decide +kernel, by decide +kernel, by decide +kernel,
      by decide +kernel, by decide, ?_, ?_⟩
    · exact ⟨⟨"scp:spending:c1", "spend"⟩, ⟨"scp:spending:c1", "spend"⟩, by decide +kernel,
        by decide +kernel, rfl⟩
    · exact ⟨sampleCapability 60 3600, sampleCapability 1 60, by decide +kernel,
        by decide +kernel, by decide +kernel⟩
  · exact .root rfl

/-- The parent by itself is accepted. -/
theorem hourlyToken_usable :
    validateSpendingUcanSigned (sampleContext [hourlyToken]) (fun _ _ => .ok ())
      (spendingCheck hourlyToken) = .ok (sampleCapability 60 3600) :=
  (spending_token_usable_iff hourlyToken_otherChecks (.root rfl)).mpr rfl

/-- The token below it passes every other check and has a good chain, and is refused as a
circular delegation. -/
theorem minuteToken_refused :
    OtherChecks (sampleContext [hourlyToken]) (fun _ _ => .ok ()) (spendingCheck minuteToken)
      (sampleCapability 1 60) ∧
    SpendingChain (sampleContext [hourlyToken]) "alice" minuteToken ∧
    validateSpendingUcanSigned (sampleContext [hourlyToken]) (fun _ _ => .ok ())
      (spendingCheck minuteToken) = .error (.ucan (.circularDelegation "alice")) :=
  ⟨minuteToken_otherChecks, minuteToken_chain, by decide +kernel⟩

end ScpCore.Spending
