import ScpCore.KelPreimageRoundTrip
import ScpCore.KelContent

/-! The check order over one unit, at position zero or past it. A signed unit
runs every step; an unsigned candidate runs the same calls without the walk,
sub-check 7b and step 9. -/

namespace ScpCore.Kel

inductive Signing
  | signed | unsigned
  deriving DecidableEq

inductive InceptionDefect
  | zeroCheck (defect : InceptionHeaderDefect)
  | header (error : HeaderError)
  | content (defect : ContentDefect)
  deriving DecidableEq

inductive EventDefect
  | unframed
  | noSeparator
  | identifierMismatch (recomputed : Identifier)
  | header (error : HeaderError)
  | predecessorMismatch (named : Digest)
  | walk (error : SignatureFieldError)
  | unconsumedBytes (trailing : ℕ)
  | namedCountShort (digest : Digest)
  | verifiedCountShort (digest : Digest)
  | content (digest : Digest) (defect : ContentDefect)
  | signature (digest : Digest) (role : SignerGroupRole) (index : UInt8)
      (error : IndexedSignatureError)
  deriving DecidableEq

inductive InceptionFailure
  | invalid (defect : InceptionDefect)
  | discard (defect : EventDefect)
  deriving DecidableEq

/-- The distinct indices of a key set that `indices` name. -/
def KeySet.namedIndices (keys : KeySet) (indices : List UInt8) : List UInt8 :=
  indices.foldl (fun seen index =>
    if index ∈ seen ∨ ¬ keys.keys.contains index then seen else index :: seen) []

/-- Sub-check 7a for one group. -/
def KeySet.named (keys : KeySet) (indices : List UInt8) : Bool :=
  reaches (keys.namedIndices indices).length keys.threshold

/-- One walked group's signatures, the key set they verify against, and the
verdicts reached so far; an index has a verdict exactly once it was verified. -/
structure GroupVerdicts where
  keys : KeySet
  order : List UInt8
  first : OrderedMap UInt8 (SignatureForm × IndexedSignature)
  verdicts : OrderedMap UInt8 (Except IndexedSignatureError Unit)

inductive Unverified
  | failed (index : UInt8) (error : IndexedSignatureError)
  | outsideKeySet (index : UInt8)
  deriving DecidableEq

namespace GroupVerdicts

/-- Keeps the first signature named at each index. -/
def new (keys : KeySet) (signers : List (UInt8 × SignatureForm × IndexedSignature)) :
    GroupVerdicts :=
  signers.foldl (fun g (index, form, signature) =>
    if g.first.contains index then g
    else { g with
      order := g.order ++ [index]
      first := g.first.orInsert index (form, signature) }) ⟨keys, [], [], []⟩

variable (C : Crypto) (digest : Digest)

/-- The verdict at `index`, verifying only where no step has verified it yet. -/
def verdict (g : GroupVerdicts) (index : UInt8) :
    Option (Except IndexedSignatureError Unit) × GroupVerdicts :=
  match g.keys.keys.get index, g.first.get index with
  | some key, some (form, signature) =>
    match g.verdicts.get index with
    | some verdict => (some verdict, g)
    | none =>
      let verdict := C.verify key digest form signature
      (some verdict, { g with verdicts := g.verdicts.orInsert index verdict })
  | _, _ => (none, g)

def verifiedFrom : List UInt8 → ℕ → GroupVerdicts → Bool × GroupVerdicts
  | [], count, g => (reaches count g.keys.threshold, g)
  | index :: rest, count, g =>
    if reaches count g.keys.threshold then (true, g)
    else
      match g.verdict C digest index with
      | (some (.ok ()), g) => verifiedFrom rest (count+1) g
      | (_, g) => verifiedFrom rest count g

/-- Sub-check 7b for one group, which stops at the threshold. -/
def verified (g : GroupVerdicts) : Bool × GroupVerdicts := verifiedFrom C digest g.order 0 g

def allVerifyFrom : List UInt8 → GroupVerdicts → Except Unverified GroupVerdicts
  | [], g => .ok g
  | index :: rest, g =>
    match g.verdict C digest index with
    | (some (.ok ()), g) => allVerifyFrom rest g
    | (some (.error error), _) => .error (.failed index error)
    | (none, _) => .error (.outsideKeySet index)

/-- Step 9 for one group. -/
def allVerify (g : GroupVerdicts) : Except Unverified GroupVerdicts :=
  allVerifyFrom C digest g.order g

end GroupVerdicts

section Check
variable (C : Crypto)

def decode (bytes : Bytes) : Signing → EventUnit
  | .signed => decodeEvent bytes 0
  | .unsigned => decodeCandidate bytes

/-- Step 3's first half and the inception header checks. -/
def bindInception (fields : Bytes) (served : Option Identifier) :
    Except InceptionFailure Identifier := do
  let recomputed := identifierOf C fields
  require (served.all (· = recomputed)) (.discard (.identifierMismatch recomputed))
  (readInceptionZeroChecks fields).mapError (fun defect => .invalid (.zeroCheck defect))
  pure recomputed

/-- Step 5: the field walks, and the walk ends at the unit's end. -/
def walk (read : ReadUnit) (unitLen : ℕ) : Except EventDefect Unit := do
  let field ← read.signatureField.mapError .walk
  let trailing := unitLen - field.consumed
  require (trailing = 0) (.unconsumedBytes trailing)

/-- Sub-check 7a: which groups name their threshold of distinct indices. -/
def namedCount (header : EventHeader) (keySets : List (Option KeySet)) : List Bool :=
  (header.groups.zip keySets).map (fun (group, keys) =>
    keys.any (fun keys => keys.named (group.signers.map (·.index))))

def groupVerdicts (group : HeaderGroup) (signatures : List NamedSignature) (keys : KeySet) :
    GroupVerdicts :=
  .new keys ((group.signers.zip signatures).map (fun (signer, named) =>
    (signer.index, signer.form, named.signature)))

/-- The groups with one that passed 7a and reaches its threshold, the verdicts
it took kept, or `none` where no group does. -/
def verifyAnchored (digest : Digest) :
    List (Option GroupVerdicts × Bool) → Option (List (Option GroupVerdicts))
  | [] => none
  | (some group, true) :: rest =>
    match group.verified C digest with
    | (true, group) => some (some group :: rest.map (·.1))
    | (false, group) => (verifyAnchored digest rest).map (some group :: ·)
  | (group, _) :: rest => (verifyAnchored digest rest).map (group :: ·)

/-- Sub-check 7b. -/
def verifiedCount (read : ReadUnit) (keySets : List (Option KeySet)) (anchored : List Bool)
    (digest : Digest) : Except EventDefect (List (Option GroupVerdicts)) := do
  let field ← read.signatureField.mapError .walk
  let verdicts := ((read.header.groups.zip field.signatures).zip keySets).map
    (fun ((group, signatures), keys) => keys.map (groupVerdicts group signatures))
  okOr (verifyAnchored C digest (verdicts.zip anchored)) (.verifiedCountShort digest)

/-- Step 9: every named index of every group verifies, each verdict of 7b reused. -/
def remaining (read : ReadUnit) (verdicts : List (Option GroupVerdicts)) (keySets : List KeySet)
    (digest : Digest) : Except EventDefect (List GroupVerdicts) := do
  let field ← read.signatureField.mapError .walk
  mapEach (fun ((slot, group, signatures), keys) =>
    ((slot.getD (groupVerdicts group signatures keys)).allVerify C digest).mapError
      (fun
        | .failed index error => .signature digest group.role index error
        | .outsideKeySet index => .content digest (.indexOutOfRange group.role index)))
    ((verdicts.zip (read.header.groups.zip field.signatures)).zip keySets)

/-- Steps 5, 7a, 7b, `content` and step 9, in that order. -/
def signatures (read : ReadUnit) (unitLen : ℕ) (signing : Signing)
    (keySets : List (Option KeySet)) (digest : Digest)
    (content : Except EventDefect (Applied × EventPreimage)) :
    Except EventDefect (Applied × EventPreimage) := do
  if signing = .signed then walk read unitLen
  let anchored := namedCount read.header keySets
  require (anchored.any id) (.namedCountShort digest)
  match signing with
  | .signed =>
    let verdicts ← verifiedCount C read keySets anchored digest
    let (applied, preimage) ← content
    let _ ← remaining C read verdicts applied.keySets digest
    pure (applied, preimage)
  | .unsigned => content

def Accepted.new (applied : Applied) (fields : Bytes) (digest : Digest) (preimage : EventPreimage)
    (unit : Bytes) : Accepted where
  event := chainEvent applied digest preimage unit
  installed := applied.installed
  fixed := applied.fixed
  revealed := applied.revealed
  preimage := signedPreimageOf fields
  signers := applied.signers
  effect := applied.effect

/-- The check order at position zero. -/
def checkInception (bytes : Bytes) (served : Option Identifier) (signing : Signing) :
    Except InceptionFailure Accepted := do
  match decode bytes signing with
  | .unframed => throw (.discard .unframed)
  | .noSeparator => throw (.discard .noSeparator)
  | .headerFailed failed =>
    let _ ← bindInception C failed.fields served
    throw (.invalid (.header failed.error))
  | .read read =>
    let identifier ← bindInception C read.fields served
    let digest := eventDigestOf C read.fields
    let preimage ← read.preimage.mapError (fun error => .invalid (.content (.body error)))
    let applied ← (checkContent C (.inception identifier) read.header preimage digest).mapError
      (fun defect => .invalid (.content defect))
    let (applied, preimage) ← (signatures C read bytes.length signing (applied.keySets.map some)
      digest (.ok (applied, preimage))).mapError .discard
    pure (Accepted.new applied read.fields digest preimage bytes)

/-- The key set each group counts toward 7a and 7b against, past the inception. -/
def anchoringKeySets (chain : ValidatedChain) (read : ReadUnit) : List (Option KeySet) :=
  read.header.groups.map (fun group => match group.role with
    | .root | .standingRoot => some (rootKeySet chain.head.root)
    | .reveal => (readRevealedKeys read.fields (signedLenOf read.fields)).bind
        (revealKeySet C chain.head.commitment group)
    | .replacementRoot => none)

/-- The check order at the position after `chain`'s head. -/
def checkSuccessor (chain : ValidatedChain) (bytes : Bytes) (signing : Signing) :
    Except EventDefect Accepted := do
  match decode bytes signing with
  | .unframed => throw .unframed
  | .noSeparator => throw .noSeparator
  | .headerFailed failed => throw (.header failed.error)
  | .read read =>
    let named := read.header.predecessorDigest
    require (named = chain.headDigest) (.predecessorMismatch named)
    let digest := eventDigestOf C read.fields
    let content := do
      let preimage ← read.preimage.mapError (fun error => .content digest (.body error))
      let applied ← (checkContent C (.next chain) read.header preimage digest).mapError
        (.content digest)
      pure (applied, preimage)
    let (applied, preimage) ← signatures C read bytes.length signing (anchoringKeySets C chain read)
      digest content
    pure (Accepted.new applied read.fields digest preimage bytes)

/-- A signature check passes only with the content it was given. -/
theorem signatures_ok {read : ReadUnit} {unitLen : ℕ} {signing : Signing}
    {keySets : List (Option KeySet)} {digest : Digest}
    {content : Except EventDefect (Applied × EventPreimage)} {r : Applied × EventPreimage}
    (h : signatures C read unitLen signing keySets digest content = .ok r) : content = .ok r := by
  unfold signatures at h
  cases signing with
  | unsigned =>
    simp only [reduceCtorEq, if_false, bind_ok_iff, exists_unit_iff] at h
    exact h.2
  | signed =>
    simp only [if_true, bind_ok_iff, exists_unit_iff, Prod.exists, pure_ok_iff] at h
    obtain ⟨_, _, _, _, applied, preimage, hc, _, _, rfl⟩ := h
    exact hc

theorem decode_eq_read {bytes : Bytes} {signing : Signing} {read : ReadUnit}
    (h : decode bytes signing = .read read) :
    readEvent read.fields (signedLenOf read.fields) = .ok (read.header, read.preimage) := by
  cases signing with
  | signed => exact decodeEvent_eq_read h
  | unsigned => exact (decodePrefixed_eq_read h).2

/-- What an accepted successor went through: its fields decode to a preimage
that names the head and passes the content check. -/
theorem checkSuccessor_ok {chain : ValidatedChain} {bytes : Bytes} {signing : Signing}
    {accepted : Accepted} (h : checkSuccessor C chain bytes signing = .ok accepted) :
    ∃ fields header preimage applied,
      readEvent fields (signedLenOf fields) = .ok (header, .ok preimage) ∧
      header.predecessorDigest = chain.headDigest ∧
      checkContent C (.next chain) header preimage (eventDigestOf C fields) = .ok applied ∧
      accepted = Accepted.new applied fields (eventDigestOf C fields) preimage bytes := by
  unfold checkSuccessor at h
  split at h
  case h_4 read hread =>
    simp only [bind_ok_iff, exists_unit_iff, require_ok_iff, decide_eq_true_eq, Prod.exists,
      pure_ok_iff] at h
    obtain ⟨hpred, applied, preimage, hsig, rfl⟩ := h
    have hc := signatures_ok C hsig
    simp only [bind_ok_iff, mapError_ok_iff, pure_ok_iff, Prod.mk.injEq] at hc
    obtain ⟨p, hp, a, ha, rfl, rfl⟩ := hc
    have hr := decode_eq_read hread
    rw [hp] at hr
    exact ⟨read.fields, read.header, p, a, hr, hpred, ha, rfl⟩
  all_goals simp at h

/-- What an accepted inception went through. -/
theorem checkInception_ok {bytes : Bytes} {served : Option Identifier} {signing : Signing}
    {accepted : Accepted} (h : checkInception C bytes served signing = .ok accepted) :
    ∃ fields header preimage applied,
      readEvent fields (signedLenOf fields) = .ok (header, .ok preimage) ∧
      served.all (· = identifierOf C fields) = true ∧ readInceptionZeroChecks fields = .ok () ∧
      checkContent C (.inception (identifierOf C fields)) header preimage
        (eventDigestOf C fields) = .ok applied ∧
      accepted = Accepted.new applied fields (eventDigestOf C fields) preimage bytes := by
  unfold checkInception at h
  split at h
  case h_4 read hread =>
    simp only [bind_ok_iff, exists_unit_iff, require_ok_iff, Prod.exists, mapError_ok_iff,
      bindInception, pure_ok_iff] at h
    obtain ⟨_, ⟨hserved, hzero, rfl⟩, p, hp, a, ha, applied, preimage, hsig, rfl⟩ := h
    have hc := signatures_ok C hsig
    simp only [Except.ok.injEq, Prod.mk.injEq] at hc
    obtain ⟨rfl, rfl⟩ := hc
    have hr := decode_eq_read hread
    rw [hp] at hr
    exact ⟨read.fields, read.header, p, a, hr, hserved, hzero, ha, rfl⟩
  all_goals simp at h

/-- `extend`: the chain extended by a unit, or the unit's defect. -/
def ValidatedChain.extend (chain : ValidatedChain) (unit : Bytes) :
    Except EventDefect ValidatedChain :=
  (checkSuccessor C chain unit .signed).map (chain.push C)

/-- A `Vec` holds at most `isize::MAX` bytes, so fewer elements than this. -/
def vecMax : ℕ := 2^63-1

/-- `chain` is what accepting the units of `history`, oldest first, builds:
an inception and then successors. -/
inductive Builds (identifier : Identifier) : List Accepted → ValidatedChain → Prop
  | inception {bytes : Bytes} {accepted : Accepted}
      (checked : checkInception C bytes (some identifier) .signed = .ok accepted) :
      Builds identifier [accepted] (.fromInception C identifier accepted)
  | push {history : List Accepted} {chain : ValidatedChain} {bytes : Bytes} {accepted : Accepted}
      (built : Builds identifier history chain) (room : chain.later.length < vecMax)
      (checked : checkSuccessor C chain bytes .signed = .ok accepted) :
      Builds identifier (history ++ [accepted]) (chain.push C accepted)

end Check

-- A small signed world that the check order accepts: a short hash in place of
-- SHA-256, every point valid and every signature verifying.
section Sample

def sampleCrypto : Crypto where
  sha256 b := BitVec.ofNat 256 (b.foldl (fun h u => (257*h+u.toNat+1)%1000003) 7)
  validPoint _ := true
  verify _ _ _ _ := .ok ()

def sampleEntry (key : Key) (role : KeyRole) (condition : KeyCondition) : KeyEntry :=
  ⟨key, role, condition, 0, .passkey, .ecdsaP256Sha256⟩

def sampleSnapshot (keys : List KeyEntry) (interval : U32) : KeyStateSnapshot :=
  ⟨1, keys, [], interval, .active, 0⟩

def sampleCommitment (key : Key) : Continuation :=
  .fixesCommitment ⟨[⟨prerotationCommitment sampleCrypto key, .passkey, .ecdsaP256Sha256⟩], 1⟩

/-- An inception with root key 1 and active key 2, committing to key 3. -/
def sampleInception : EventPreimage where
  kind := .inception
  identifier := 0
  sequence := 0
  predecessorDigest := 0
  standingRoot := none
  signerGroups := [⟨[0], [.raw]⟩]
  revealedKeys := []
  installedRootSet := some ⟨[1], 1⟩
  keyState := some (sampleSnapshot
    [sampleEntry 1 .rootMember .current, sampleEntry 2 .active .current] 300)
  seals := []
  continuation := some (sampleCommitment 3)

def sampleIdentifier : Identifier := identifierOf sampleCrypto (fieldsOut sampleInception)

/-- A recovery at sequence 1 that reveals key 3, co-signed by root key 1, and
replaces it by `root`. -/
def sampleRecovery (root next : Key) : EventPreimage where
  kind := .rootRecovery
  identifier := sampleIdentifier
  sequence := 1
  predecessorDigest := eventDigestOf sampleCrypto (fieldsOut sampleInception)
  standingRoot := some .coSigns
  signerGroups := [⟨[0], [.raw]⟩, ⟨[0], [.raw]⟩, ⟨[0], [.raw]⟩]
  revealedKeys := [3]
  installedRootSet := some ⟨[root], 1⟩
  keyState := some (sampleSnapshot [sampleEntry 2 .active .current,
    sampleEntry root .rootMember .current, sampleEntry 1 .rootMember .superseded] 300)
  seals := []
  continuation := some (sampleCommitment next)

/-- The event unit of a preimage, with `signers` raw signatures. -/
def sampleUnit (p : EventPreimage) (signers : ℕ) : Bytes :=
  let signed := signedPreimageOf (fieldsOut p)
  beBytes 4 signed.length ++ signed ++ List.replicate (64*signers) 0

def sampleAccepted : Accepted :=
  okGet (checkInception sampleCrypto (sampleUnit sampleInception 1) (some sampleIdentifier) .signed)
    (by decide +kernel)

def sampleChain : ValidatedChain := .fromInception sampleCrypto sampleIdentifier sampleAccepted

def sampleRecovered : Accepted :=
  okGet (checkSuccessor sampleCrypto sampleChain (sampleUnit (sampleRecovery 4 5) 3) .signed)
    (by decide +kernel)

theorem sample_builds :
    Builds sampleCrypto sampleIdentifier [sampleAccepted] sampleChain :=
  .inception (eq_okGet _ _)

theorem sampleRecovered_builds :
    Builds sampleCrypto sampleIdentifier [sampleAccepted, sampleRecovered]
      (sampleChain.push sampleCrypto sampleRecovered) :=
  .push sample_builds (by decide) (eq_okGet _ _)

end Sample

end ScpCore.Kel
