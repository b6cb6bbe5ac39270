import ScpCore.KelRetention
import ScpCore.KelEntry

/-! The verdict a resolution returns: what the sources served, ranked with what
the verifier holds, and the set it holds next. -/

namespace ScpCore.Kel

structure KeyState where
  rootThreshold : U32
  keys : List KeyEntry
  witnesses : List Identifier
  witnessingInterval : U32
  serviceKeyRole : KeyRole
  delegator : Identifier
  standingCommitment : StandingCommitment
  deriving DecidableEq

def KeyStateSnapshot.intoKeyState (s : KeyStateSnapshot) (standingCommitment : StandingCommitment) :
    KeyState where
  rootThreshold := s.rootThreshold
  keys := s.keys
  witnesses := s.witnesses
  witnessingInterval := s.witnessingInterval
  serviceKeyRole := s.serviceKeyRole
  delegator := s.delegator
  standingCommitment

structure ReplayedState where
  identifier : Identifier
  headDigest : Digest
  headSequence : ℕ
  keyState : KeyState
  activeKey : Key
  rootCount : ℕ
  deriving DecidableEq

def ReplayedState.compose (identifier : Identifier) (standing : ChainEvent) : ReplayedState where
  identifier
  headDigest := standing.digest
  headSequence := standing.sequence
  keyState := standing.snapshot.intoKeyState standing.commitment
  activeKey := standing.resolved.active
  rootCount := standing.resolved.rootCount

def replay (chain : ValidatedChain) : ReplayedState := .compose chain.identifier chain.head

structure SequenceRange where
  from_ : Option ℕ
  to_ : Option ℕ
  deriving DecidableEq

inductive InconclusiveCause
  | missingEvents (range : SequenceRange) (failedSources : List String)
  | singleSource (reachedSources provenSources clockSkewRejected : ℕ)
  deriving DecidableEq

inductive ResolutionVerdict
  | confirmed
  | adopted (head : Digest) (baselineDecreased : Bool)
  | contested (tie : TieClass) (heads : List Digest) (sharedPrefixHead : Digest) (forkPosition : ℕ)
      (residue : ℕ)
  | inconclusive (cause : InconclusiveCause)
  | invalid
  | discarded (acceptedHead : Digest)
  deriving DecidableEq

inductive SourceExhaustion
  | exhausted | stoppedAtFetchBound | failed
  deriving DecidableEq

inductive OperatorProof
  | verified (operatorKey : Key)
  | clockSkewRejected
  | unverified
  deriving DecidableEq

/-- What one source served, in served order, and how far it was read. -/
structure SourceRead where
  name : String
  units : List Bytes
  exhaustion : SourceExhaustion
  proof : OperatorProof
  room : units.length ≤ vecMax
  deriving DecidableEq

inductive ClassifyError
  | heldOfAnotherIdentifier (resolved held : Identifier)
  | resolve (error : ResolveError)
  | retention (error : RetentionError)
  deriving DecidableEq

section Resolution
variable (Instant : Type)

/-- The key state a resolution accepted. -/
structure ResolvedState where
  chain : ValidatedChain
  replayed : ReplayedState
  identifier : Identifier
  headDigest : Digest
  headSequence : ℕ
  resolvedAt : Instant
  deriving DecidableEq

structure Classification where
  verdict : ResolutionVerdict
  keyState : Option (ResolvedState Instant)
  retention : Option RetentionSet
  residue : ℕ
  deriving DecidableEq

variable {Instant}

def ResolvedState.of (chain : ValidatedChain) (resolvedAt : Instant) : ResolvedState Instant where
  chain
  replayed := replay chain
  identifier := chain.identifier
  headDigest := chain.headDigest
  headSequence := chain.headSequence
  resolvedAt

end Resolution

/-- `n` as a `u32`, saturating. -/
def count (n : ℕ) : ℕ := min n (2^32-1)

def operatorKey : OperatorProof → Option Key
  | .verified operatorKey => some operatorKey
  | .clockSkewRejected | .unverified => none

/-- Every source's valid chains, with how far each was read. -/
structure Served where
  sources : List (SourceRead × List ValidatedChain)

namespace Served
variable (C : Crypto)

/-- The chains of one source, or `none` where its inception is invalid. -/
def entryChains (identifier : Identifier) (units : List Bytes) : Option (List ValidatedChain) :=
  match (validateEntry C identifier units).verdict with
  | .inceptionInvalid _ => none
  | .noInception => some []
  | .valid chains => some chains

/-- `none` where an inception that recomputes to the identifier is invalid. -/
def read (identifier : Identifier) : List SourceRead → Option Served
  | [] => some ⟨[]⟩
  | read :: reads => do
    let chains ← entryChains C identifier read.units
    let served ← Served.read identifier reads
    some ⟨(read, chains) :: served.sources⟩

variable (s : Served)

/-- Every chain any source served. -/
def all : List ValidatedChain := s.sources.flatMap (·.2)

/-- Every chain an exhausted source served. -/
def exhausted : List ValidatedChain :=
  (s.sources.filter (·.1.exhaustion = .exhausted)).flatMap (·.2)

def stopped : Bool := s.sources.any (·.1.exhaustion = .stoppedAtFetchBound)

def missingEvents (held : Option RetentionSet) : ResolutionVerdict :=
  let assembled := s.sources.any (fun t => !t.2.isEmpty)
  .inconclusive (.missingEvents
    ⟨if assembled then none
      else some (held.elim 0 (fun set => saturatingAdd set.basis.chain.headSequence 1)), none⟩
    ((s.sources.filter (·.1.exhaustion = .failed)).map (·.1.name)))

/-- The first-contact floor: the cause where fewer than two operator keys sit over
exhausted sources that served a valid chain. -/
def belowFloor : Option InconclusiveCause :=
  let counted := ((s.sources.filter (fun t => t.1.exhaustion = .exhausted ∧ t.2 ≠ [])).filterMap
    (operatorKey ·.1.proof)).dedup
  if 2 ≤ counted.length then none
  else
    let reached := s.sources.filter (·.1.exhaustion ≠ .failed)
    let proven := (reached.filterMap (operatorKey ·.1.proof)).dedup
    let skewed := reached.filter (·.1.proof = .clockSkewRejected)
    some (.singleSource (count reached.length) (count proven.length) (count skewed.length))

end Served

/-- A tie and its class. -/
structure Contest where
  tieClass : TieClass
  heads : List Digest
  sharedPrefixHead : Digest
  forkPosition : ℕ
  deriving DecidableEq

/-- The prefix below the fork, of the first chain that holds its head there. -/
def prefixOf (chains : List ValidatedChain) (sharedPrefixHead : Digest) (forkPosition : ℕ) :
    Except ClassifyError ValidatedChain :=
  okOr ((chains.filterMap (·.prefixThrough (forkPosition-1))).find?
    (·.headDigest = sharedPrefixHead)) (.resolve .noResolution)

/-- The tie a source stopped at the fetch bound may be classified by: at rank 1,
with every reveal of its shared prefix root-cosigned. -/
def earlyStop (served : Served) (ranked : List ValidatedChain) (resolution : SetResolution) :
    Except ClassifyError (Option Contest) :=
  if !served.stopped then .ok none
  else match resolution with
    | .tie .rank1Terminal heads sharedPrefixHead forkPosition => do
      let shared ← prefixOf ranked sharedPrefixHead forkPosition
      pure (if shared.revealsRootCosignedThrough shared.headSequence then
        some ⟨.rank1Terminal, heads, sharedPrefixHead, forkPosition⟩ else none)
    | .tie .rank2Terminal _ _ _ | .tie .rank3Pending _ _ _ | .winner _ | .empty => .ok none

/-- Whether a held chain carries the event. -/
def holds (set : RetentionSet) (head : Digest) : Bool :=
  set.chains.any (fun chain => chain.events.any (fun event => event.digest = head))

/-- The refused heads the final set does not hold, each once. -/
def residueOf (refused : List Digest) (set : RetentionSet) : ℕ :=
  count ((refused.dedup.filter (fun head => !holds set head)).length)

/-- Admits each candidate whose head the set `before` did not hold. -/
def admitNew (before : Option RetentionSet) :
    RetentionSet → List ValidatedChain → List Digest →
      Except ClassifyError (RetentionSet × List Digest)
  | set, [], refused => .ok (set, refused)
  | set, chain :: rest, refused =>
    if before.any (fun before => holds before chain.headDigest) then
      admitNew before set rest refused
    else match set.admit_ chain with
      | (.error error, _) => .error (.retention error)
      | (.ok (.refused _), set) => admitNew before set rest (refused ++ [chain.headDigest])
      | (.ok (.retained _ _), set) | (.ok (.extended _ _ _), set) | (.ok .alreadyHeld, set) =>
        admitNew before set rest refused

section Exits
variable {Instant : Type}

/-- A verdict that changes no stored state. -/
def unchanged (held : Option RetentionSet) (verdict : ResolutionVerdict) :
    Classification Instant := ⟨verdict, none, held, 0⟩

/-- The set beside a tie's shared prefix, with the candidates it did not hold; the
prefix is the basis at a first contact. -/
def contestedSet (held : Option RetentionSet) (shared : ValidatedChain)
    (candidates : List ValidatedChain) : Except ClassifyError (RetentionSet × List Digest) :=
  match held with
  | some held =>
    ((held.afterContest shared (candidates.filter (fun chain =>
      !holds held chain.headDigest))).mapError .retention).map (fun (report, set) =>
        (set, report.refused))
  | none => admitNew none (.new (.contestedPrefix shared)) candidates []

/-- A tie: the tied chains and those of `read` are admitted beside its shared prefix. -/
def contested (held : Option RetentionSet) (contest : Contest) (ranked read : List ValidatedChain) :
    Except ClassifyError (Classification Instant) := do
  let shared ← prefixOf ranked contest.sharedPrefixHead contest.forkPosition
  let tied := ranked.filter (fun chain => chain.headDigest ∈ contest.heads)
  let (set, refused) ← contestedSet held shared (tied ++ read)
  let residue := residueOf refused set
  pure ⟨.contested contest.tieClass contest.heads contest.sharedPrefixHead contest.forkPosition
    residue, none, some set, residue⟩

/-- The winner with the baseline's copies where it extends it. -/
def baselineCopies (baseline : Option ValidatedChain) (winner : ValidatedChain) :
    Except ClassifyError ValidatedChain :=
  match baseline with
  | some baseline => do
    let pairing ← (pairChains winner baseline).mapError (fun e => .resolve (.unrelated e))
    pure (if pairing = .rightPrefixOfLeft then baseline.extendedBy winner else winner)
  | none => .ok winner

/-- The set moved to an accepted chain, or a new one at it. -/
def acceptedSet (held : Option RetentionSet) (winner : ValidatedChain) :
    Except ClassifyError (RetentionSet × List Digest) :=
  match held with
  | some held =>
    match held.rerank (.accepted winner) with
    | (.error error, _) => .error (.retention error)
    | (.ok report, next) => .ok (next, report.refused)
  | none => .ok (.new (.accepted winner), [])

/-- The set moves to `winner` and every chain of `read` it did not hold is admitted. -/
def adopted (held : Option RetentionSet) (baseline : Option ValidatedChain)
    (winner : ValidatedChain) (read : List ValidatedChain) (now : Instant) :
    Except ClassifyError (Classification Instant) := do
  let adoptedHead := winner.headDigest
  let decreased := baseline.any (fun replaced => winner.headSequence < replaced.headSequence)
  let winner ← baselineCopies baseline winner
  let (next, refused) ← acceptedSet held winner
  let (next, refused) ← admitNew held next read refused
  let residue := residueOf refused next
  pure ⟨.adopted adoptedHead decreased, some (.of next.basis.chain now), some next, residue⟩

/-- The winner against the accepted chain: confirmed at its head, discarded where
every chain read to its end is a proper prefix of it, else adopted. -/
def onBaseline (set : RetentionSet) (baseline winner : ValidatedChain)
    (exhausted : List ValidatedChain) (now : Instant) :
    Except ClassifyError (Classification Instant) := do
  if winner.headDigest ≠ baseline.headDigest then
    adopted (some set) (some baseline) winner exhausted now
  else
    let pairings ← mapEach (fun chain =>
      (pairChains chain baseline).mapError (fun e => ClassifyError.resolve (.unrelated e))) exhausted
    if pairings.all (· = .leftPrefixOfRight) then
      pure (unchanged (some set) (.discarded baseline.headDigest))
    else
      let (next, refused) ← admitNew (some set) set.confirmAccepted exhausted []
      let residue := residueOf refused next
      pure ⟨.confirmed, some (.of next.basis.chain now), some next, residue⟩

/-- The accepted chain a set holds, which a contested prefix is not. -/
def baselineOf (set : RetentionSet) : Option ValidatedChain :=
  match set.basis with
  | .accepted chain => some chain
  | .contestedPrefix _ => none

/-- Whether a held chain or one read to its end carries the event. -/
def readThrough (chains : List ValidatedChain) (head : Digest) : Bool :=
  chains.any (fun chain => chain.events.any (fun event => event.digest = head))

/-- The verdict below the floor that binds with no accepted baseline. -/
def floorVerdict (held : Option RetentionSet) (served : Served) : Option ResolutionVerdict :=
  if (held.bind baselineOf).isSome then none
  else if served.exhausted.isEmpty then some (served.missingEvents held)
  else served.belowFloor.map .inconclusive

/-- Classifies what was served once it is validated. -/
def classifyServed (held : Option RetentionSet) (served : Served) (now : Instant) :
    Except ClassifyError (Classification Instant) := do
  let heldChains := held.elim [] RetentionSet.chains
  let exhausted := served.exhausted
  match floorVerdict held served with
  | some verdict => pure (unchanged held verdict)
  | none =>
    let ranked := heldChains ++ served.all
    let resolution ← (resolveSet ranked).mapError .resolve
    match ← earlyStop served ranked resolution with
    | some contest => contested held contest ranked exhausted
    | none =>
      if exhausted.isEmpty then pure (unchanged held (served.missingEvents held))
      else match resolution with
        | .tie tieClass heads sharedPrefixHead forkPosition =>
          if heads.all (readThrough (heldChains ++ exhausted)) then
            contested held ⟨tieClass, heads, sharedPrefixHead, forkPosition⟩ ranked exhausted
          else pure (unchanged held (served.missingEvents held))
        | .winner head =>
          if readThrough (heldChains ++ exhausted) head then do
            let winner ← okOr (ranked.find? (·.headDigest = head)) (.resolve .noResolution)
            match held, held.bind baselineOf with
            | some set, some baseline => onBaseline set baseline winner exhausted now
            | held, _ => adopted held none winner exhausted now
          else pure (unchanged held (served.missingEvents held))
        | .empty => throw (.resolve .noResolution)

def classify (C : Crypto) (identifier : Identifier) (held : Option RetentionSet)
    (reads : List SourceRead) (now : Instant) : Except ClassifyError (Classification Instant) := do
  if let some set := held then
    require (set.basis.chain.identifier = identifier)
      (ClassifyError.heldOfAnotherIdentifier identifier set.basis.chain.identifier)
  match Served.read C identifier reads with
  | none => pure (unchanged held .invalid)
  | some served => classifyServed held served now

end Exits

end ScpCore.Kel
