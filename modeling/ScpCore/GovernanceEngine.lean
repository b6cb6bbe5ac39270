import ScpCore.ConflictResolution

/-! The threshold, majority and unanimity engines of a context: the proposals they hold, the
signed votes they count and the rules by which they resolve. The three differ in the tally
and in what they do with a vote after the deadline. -/

namespace ScpCore.Governance

inductive VoteType
  | approve | reject
  deriving DecidableEq

structure SignedVote where
  voterDid : Did
  vote : VoteType
  timestamp : ℕ
  signature : Bytes
  deriving DecidableEq

inductive RejectionReason
  | adminRejected
  | majorityRejected
  | unanimityBroken (rejector : Did)
  | approvalImpossible
  | insufficientParticipation
  deriving DecidableEq

inductive ProposalStatus
  | pending
  | approved
  | rejected (reason : RejectionReason)
  | expired
  | cancelled
  | invalidated (reason : String)
  deriving DecidableEq

namespace ProposalStatus

def isPending : ProposalStatus → Bool
  | pending => true
  | _ => false

def isTerminal (status : ProposalStatus) : Bool := !status.isPending

@[simp] theorem isPending_iff (status : ProposalStatus) :
    status.isPending = true ↔ status = pending := by
  cases status <;> simp [isPending]

@[simp] theorem isPending_eq_false_iff (status : ProposalStatus) :
    status.isPending = false ↔ status ≠ pending := by
  cases status <;> simp [isPending]

end ProposalStatus

structure GovernanceProposal (Action : Type) where
  proposalId : ProposalId
  contextId : String
  proposerDid : Did
  action : Action
  status : ProposalStatus
  createdAt : ℕ
  votingDeadline : ℕ
  approvals : List SignedVote
  rejections : List SignedVote
  createdAtEpoch : Option ℕ
  deriving DecidableEq

/-- What the engines read of the context. -/
structure GovernanceContext where
  contextId : String
  currentEpoch : Option ℕ
  now : ℕ

inductive GovernanceEvent (Action : Type)
  | proposalCreated (proposalId : ProposalId) (proposerDid : Did) (action : Action)
      (votingDeadline : ℕ)
  | voteCast (proposalId : ProposalId) (voterDid : Did) (vote : VoteType)
  | voteWithdrawn (proposalId : ProposalId) (voterDid : Did)
  | proposalResolved (proposalId : ProposalId) (status : ProposalStatus)
  deriving DecidableEq

/-- The text in a refusal of a proposal that is not open. -/
inductive NotPendingText
  | status (status : ProposalStatus)
  | votingDeadlinePassed
  deriving DecidableEq

inductive GovernanceError
  | notEligible (text : String)
  | proposalNotFound (id : ProposalId)
  | proposalNotPending (text : NotPendingText)
  | alreadyVoted
  | serializationFailed (text : String)
  | duplicateProposal (id : ProposalId)
  | invalidConfig (text : String)
  | votingWindowExpired (id : ProposalId)
  | verificationFailed (text : String)
  | invalidSignature (voterDid : Did) (proposalId : ProposalId)
  | proposerVoteMismatch (expectedSigned : Bool)
  | unknownVoter (did : Did)
  deriving DecidableEq

/-- The hash, the canonical encoding of actions and the signature check. -/
structure VoteScheme (Action Key : Type) where
  sha256 : Bytes → Bytes
  actionBytes : Action → Except String Bytes
  verifyStrict : Key → Bytes → Bytes → Bool

section Signatures
variable {Action Key : Type} (S : VoteScheme Action Key)

def textBytes (text : String) : Bytes := text.toUTF8.toList

def prefixed (bytes : Bytes) : Bytes := beBytes 4 bytes.length ++ bytes

def VoteType.bytes : VoteType → Bytes
  | approve => textBytes "\"Approve\""
  | reject => textBytes "\"Reject\""

def computeProposalId (contextId : String) (proposer : Did) (actionBytes : Bytes)
    (timestamp : ℕ) : ProposalId :=
  S.sha256 (textBytes "SCP-PROPOSAL-V1:" ++ prefixed (textBytes contextId) ++
    prefixed (textBytes proposer) ++ prefixed actionBytes ++ beBytes 8 timestamp)

def proposalIdFor (proposer : Did) (action : Action) (context : GovernanceContext) :
    Except GovernanceError ProposalId := do
  let actionBytes ← (S.actionBytes action).mapError .serializationFailed
  return computeProposalId S context.contextId proposer actionBytes context.now

def voteSigningDigest (proposalId : ProposalId) (voter : Did) (vote : VoteType)
    (timestamp : ℕ) : Bytes :=
  S.sha256 (textBytes "SCP-VOTE-V1:" ++ proposalId ++ prefixed (textBytes voter) ++
    prefixed vote.bytes ++ beBytes 8 timestamp)

def verifyVote (proposalId : ProposalId) (vote : SignedVote) (key : Key) :
    Except GovernanceError Unit := do
  let hash := voteSigningDigest S proposalId vote.voterDid vote.vote vote.timestamp
  require (vote.signature.length = 64)
    (.verificationFailed s!"signature must be 64 bytes, got {vote.signature.length}")
  require (S.verifyStrict key hash vote.signature) (.verificationFailed "signature error")

def resolveVoterKey (keyResolver : Did → Option Key) (did : Did) : Except GovernanceError Key :=
  okOr (keyResolver did) (.unknownVoter did)

def checkSignedVote (keyResolver : Did → Option Key) (proposalId : ProposalId) (voter : Did)
    (expected : VoteType) (context : GovernanceContext) (vote : SignedVote) :
    Except GovernanceError Unit := do
  require (vote.voterDid = voter && vote.vote = expected && vote.timestamp = context.now)
    (.invalidSignature voter proposalId)
  let key ← resolveVoterKey keyResolver voter
  (verifyVote S proposalId vote key).mapError fun _ => .invalidSignature voter proposalId

/-- The voter's key resolves and verifies the vote over this proposal's digest. -/
def Verified (keyResolver : Did → Option Key) (proposalId : ProposalId) (vote : SignedVote) :
    Prop :=
  ∃ key, keyResolver vote.voterDid = some key ∧ vote.signature.length = 64 ∧
    S.verifyStrict key
      (voteSigningDigest S proposalId vote.voterDid vote.vote vote.timestamp) vote.signature = true

theorem checkSignedVote_ok {keyResolver : Did → Option Key} {proposalId : ProposalId}
    {voter : Did} {expected : VoteType} {context : GovernanceContext} {vote : SignedVote}
    (h : checkSignedVote S keyResolver proposalId voter expected context vote = .ok ()) :
    vote.voterDid = voter ∧ vote.vote = expected ∧ Verified S keyResolver proposalId vote := by
  simp only [checkSignedVote, verifyVote, bind_ok_iff, exists_unit_iff, require_ok_iff,
    mapError_ok_iff, Bool.and_eq_true, decide_eq_true_eq, resolveVoterKey, okOr_ok_iff] at h
  obtain ⟨⟨⟨hvoter, hvote⟩, -⟩, key, hkey, hlength, hverify⟩ := h
  subst hvoter
  exact ⟨rfl, hvote, key, hkey, hlength, hverify⟩

end Signatures

/-- The rule by which an engine tallies. -/
inductive VotingModel
  | threshold (threshold : ℕ)
  | majority (minParticipationBps : ℕ)
  | unanimity
  deriving DecidableEq

structure Engine (Action Key : Type) where
  model : VotingModel
  /-- The signers, the eligible voters or the required voters. -/
  voters : List Did
  votingWindowSecs : ℕ
  proposals : ProposalId → Option (GovernanceProposal Action)
  keyResolver : Did → Option Key

def u32 (n : ℕ) : ℕ := n%2^32

def usizeMax : ℕ := 2^64-1

/-- The status that the current votes give a pending proposal, if they decide it. -/
def evaluateResolution {Action : Type} (model : VotingModel) (voters : List Did)
    (proposal : GovernanceProposal Action) (now : ℕ) : Option ProposalStatus :=
  match model with
  | .threshold threshold =>
    if threshold ≤ u32 proposal.approvals.length then some .approved
    else if u32 voters.length - threshold < u32 proposal.rejections.length then
      some (.rejected .approvalImpossible)
    else if proposal.votingDeadline ≤ now then some .expired
    else none
  | .unanimity =>
    if proposal.approvals.length = voters.length then some .approved
    else match proposal.rejections with
      | rejection :: _ => some (.rejected (.unanimityBroken rejection.voterDid))
      | [] => if proposal.votingDeadline ≤ now then some .expired else none
  | .majority minParticipationBps =>
    let eligible := voters.length
    let approvals := proposal.approvals.length
    let rejections := proposal.rejections.length
    if eligible < approvals*2 then some .approved
    else if (eligible+1)/2 ≤ rejections then some (.rejected .majorityRejected)
    else if proposal.votingDeadline ≤ now then
      if min ((approvals+rejections)*10000) usizeMax/eligible < minParticipationBps then
        some (.rejected .insufficientParticipation)
      else if rejections < approvals then some .approved
      else some (.rejected .majorityRejected)
    else none

namespace VotingModel

def emptyText : VotingModel → String
  | threshold _ => "signers must be non-empty"
  | majority _ => "eligible voters must be non-empty"
  | unanimity => "voters must be non-empty"

def notVoterText (voter : Did) : VotingModel → String
  | threshold _ => "voter is not in the signer set"
  | majority _ => s!"{voter} is not an eligible voter"
  | unanimity => "voter is not in the voter set"

def notProposerText (proposer : Did) : VotingModel → String
  | threshold _ => "proposer is not in the signer set"
  | majority _ => s!"{proposer} is not an eligible voter"
  | unanimity => "proposer is not in the voter set"

def notVotedText (voter : Did) : VotingModel → String
  | majority _ => s!"{voter} has not voted on this proposal"
  | _ => "voter has not voted on this proposal"

/-- Whether the proposer's own approval is the first vote. -/
def proposerSigns : VotingModel → Bool
  | majority _ => false
  | _ => true

end VotingModel

/-- A returned status with the events to log. -/
abbrev Resolution (Action : Type) := ProposalStatus × List (GovernanceEvent Action)

namespace GovernanceProposal
variable {Action : Type} (p : GovernanceProposal Action)

def hasVoted (voter : Did) : Bool :=
  p.approvals.any (·.voterDid = voter) || p.rejections.any (·.voterDid = voter)

/-- The proposal without the votes of `gone`. -/
def without (gone : List Did) : GovernanceProposal Action :=
  { p with
    approvals := p.approvals.filter (·.voterDid ∉ gone)
    rejections := p.rejections.filter (·.voterDid ∉ gone) }

def push (vote : SignedVote) : VoteType → GovernanceProposal Action
  | .approve => { p with approvals := p.approvals ++ [vote] }
  | .reject => { p with rejections := p.rejections ++ [vote] }

def votes : List SignedVote := p.approvals ++ p.rejections

end GovernanceProposal

namespace Engine
variable {Action Key : Type} (S : VoteScheme Action Key)

/-- The constructors of the three engines. -/
def new (model : VotingModel) (voters : List Did) (votingWindowSecs : ℕ)
    (keyResolver : Did → Option Key) : Except GovernanceError (Engine Action Key) := do
  require (!voters.isEmpty) (.invalidConfig model.emptyText)
  let window : Except GovernanceError Unit :=
    require (300 ≤ votingWindowSecs ∧ votingWindowSecs ≤ 604800) (.invalidConfig
      s!"voting_window_secs must be in [300, 604800], got {votingWindowSecs}")
  -- The threshold engine looks at its threshold before the window, the majority engine after.
  match model with
  | .threshold threshold =>
    require (threshold ≠ 0 ∧ threshold ≤ u32 voters.length) (.invalidConfig
      s!"threshold must be in [1, {voters.length}], got {threshold}")
    window
  | .majority bps =>
    window
    require (bps ≠ 0 ∧ bps ≤ 10000) (.invalidConfig
      s!"min_participation_bps must be in (0, 10000], got {bps}")
  | .unanimity => window
  return ⟨model, voters, votingWindowSecs, fun _ => none, keyResolver⟩

variable (e : Engine Action Key)

def get (id : ProposalId) : Except GovernanceError (GovernanceProposal Action) :=
  okOr (e.proposals id) (.proposalNotFound id)

def set (id : ProposalId) (p : GovernanceProposal Action) : Engine Action Key :=
  { e with proposals := Function.update e.proposals id (some p) }

def isVoter (did : Did) : Bool := e.voters.any (· = did)

/-- `resolve_proposal`, and `resolve` of the majority engine. -/
def resolveProposal (id : ProposalId) (now : ℕ) :
    Except GovernanceError (Resolution Action × Engine Action Key) := do
  let p ← e.get id
  if p.status.isTerminal then
    return ((p.status, []), e)
  match evaluateResolution e.model e.voters p now with
  | none => return ((.pending, []), e)
  | some status =>
    return ((status, [.proposalResolved id status]), e.set id { p with status := status })

/-- What the guards of a vote let through: the vote, or the resolution of a majority
proposal whose deadline has passed. -/
inductive PrecheckOutcome (Action Key : Type)
  | proceed
  | resolved (resolution : Resolution Action) (engine : Engine Action Key)

def guardVote (id : ProposalId) (voter : Did) (context : GovernanceContext) :
    Except GovernanceError (PrecheckOutcome Action Key) := do
  require (e.isVoter voter) (.notEligible (e.model.notVoterText voter))
  let p ← e.get id
  require p.status.isPending (.proposalNotPending (.status p.status))
  match e.model with
  | .majority _ =>
    -- Past the deadline the majority engine resolves instead of refusing.
    if p.votingDeadline ≤ context.now then
      let (resolution, e') ← e.resolveProposal id context.now
      return .resolved resolution e'
    else
      require (!p.hasVoted voter) .alreadyVoted
      return .proceed
  | _ =>
    require (context.now < p.votingDeadline) (.votingWindowExpired id)
    require (!p.hasVoted voter) .alreadyVoted
    return .proceed

/-- The status the majority engine gives in line, after the vote it has just pushed. -/
def inlineResolution (eligible : ℕ) (p : GovernanceProposal Action) :
    VoteType → Option ProposalStatus
  | .approve => if eligible < p.approvals.length*2 then some .approved else none
  | .reject =>
    if (eligible+1)/2 ≤ p.rejections.length then some (.rejected .majorityRejected) else none

def pushAndResolve (id : ProposalId) (voter : Did) (signedVote : SignedVote) (vote : VoteType)
    (context : GovernanceContext) :
    Except GovernanceError (Resolution Action × Engine Action Key) := do
  let p ← e.get id
  let pushed := p.push signedVote vote
  let cast := GovernanceEvent.voteCast id voter vote
  match e.model with
  | .majority _ =>
    match inlineResolution e.voters.length pushed vote with
    | some status =>
      return ((status, [cast, .proposalResolved id status]),
        e.set id { pushed with status := status })
    | none => return ((pushed.status, [cast]), e.set id pushed)
  | _ =>
    let ((status, events), e') ← (e.set id pushed).resolveProposal id context.now
    return ((status, cast :: events), e')

def castSigned (id : ProposalId) (voter : Did) (context : GovernanceContext)
    (vote : SignedVote) (expected : VoteType) :
    Except GovernanceError (Resolution Action × Engine Action Key) := do
  match ← e.guardVote id voter context with
  | .resolved resolution e' => return (resolution, e')
  | .proceed =>
    checkSignedVote S e.keyResolver id voter expected context vote
    e.pushAndResolve id voter vote expected context

def approveSigned (id : ProposalId) (voter : Did) (context : GovernanceContext)
    (vote : SignedVote) : Except GovernanceError (Resolution Action × Engine Action Key) :=
  e.castSigned S id voter context vote .approve

def rejectSigned (id : ProposalId) (voter : Did) (context : GovernanceContext)
    (vote : SignedVote) : Except GovernanceError (Resolution Action × Engine Action Key) :=
  e.castSigned S id voter context vote .reject

/-- The id of the proposal, once its proposer may make it. -/
def precheckPropose (proposer : Did) (action : Action) (context : GovernanceContext) :
    Except GovernanceError ProposalId := do
  require (e.isVoter proposer) (.notEligible (e.model.notProposerText proposer))
  let id ← proposalIdFor S proposer action context
  require (e.proposals id).isNone (.duplicateProposal id)
  if e.model.proposerSigns then
    -- The key resolves before anyone is asked to sign.
    let _ ← resolveVoterKey e.keyResolver proposer
  return id

def proposeSigned (proposer : Did) (action : Action) (context : GovernanceContext)
    (proposerVote : Option SignedVote) :
    Except GovernanceError
      ((GovernanceProposal Action × List (GovernanceEvent Action)) × Engine Action Key) := do
  let id ← e.precheckPropose S proposer action context
  require (proposerVote.isSome = e.model.proposerSigns)
    (.proposerVoteMismatch e.model.proposerSigns)
  let votingDeadline := context.now+e.votingWindowSecs
  let proposal : GovernanceProposal Action :=
    { proposalId := id, contextId := context.contextId, proposerDid := proposer,
      action := action, status := .pending, createdAt := context.now,
      votingDeadline := votingDeadline, approvals := proposerVote.toList, rejections := [],
      createdAtEpoch := context.currentEpoch }
  let created := GovernanceEvent.proposalCreated id proposer action votingDeadline
  match proposerVote with
  | none => return ((proposal, [created]), e.set id proposal)
  | some vote =>
    checkSignedVote S e.keyResolver id proposer .approve context vote
    let ((_, events), e') ← (e.set id proposal).resolveProposal id context.now
    let p ← e'.get id
    return ((p, created :: .voteCast id proposer .approve :: events), e')

/-- Drops the voter's first vote, as the majority engine does. -/
def dropFirst (p : GovernanceProposal Action) (voter : Did) : GovernanceProposal Action :=
  if p.approvals.any (·.voterDid = voter) then
    { p with approvals := p.approvals.eraseP (·.voterDid = voter) }
  else { p with rejections := p.rejections.eraseP (·.voterDid = voter) }

def withdrawVote (id : ProposalId) (voter : Did) (context : GovernanceContext) :
    Except GovernanceError (Resolution Action × Engine Action Key) := do
  require (e.isVoter voter) (.notEligible (e.model.notVoterText voter))
  let p ← e.get id
  require p.status.isPending (.proposalNotPending (.status p.status))
  match e.model with
  | .majority _ =>
    require (context.now < p.votingDeadline) (.proposalNotPending .votingDeadlinePassed)
    require (p.hasVoted voter) (.notEligible (e.model.notVotedText voter))
    return ((p.status, [.voteWithdrawn id voter]), e.set id (dropFirst p voter))
  | _ =>
    require (context.now < p.votingDeadline) (.votingWindowExpired id)
    require (p.hasVoted voter) (.notEligible (e.model.notVotedText voter))
    return ((.pending, []), e.set id (p.without [voter]))

def removeDepartedVoter (id : ProposalId) (voter : Did) (context : GovernanceContext) :
    Except GovernanceError
      ((Option ProposalStatus × List (GovernanceEvent Action)) × Engine Action Key) := do
  let p ← e.get id
  if p.status.isPending then
    let p' := if p.hasVoted voter then p.without [voter] else p
    let shrunk := { e.set id p' with voters := e.voters.filter (· ≠ voter) }
    let ((status, events), e') ← shrunk.resolveProposal id context.now
    return ((if status.isTerminal then some status else none, events), e')
  else return ((none, []), e)

def invalidateProposal (id : ProposalId) (reason : String) :
    Except GovernanceError (List (GovernanceEvent Action) × Engine Action Key) := do
  let p ← e.get id
  require p.status.isPending (.proposalNotPending (.status p.status))
  return ([.proposalResolved id (.invalidated reason)],
    e.set id { p with status := .invalidated reason })

/-- `ids` lists the pending proposals in some order, as `pending_proposal_ids` does. -/
def PendingIds (ids : List ProposalId) : Prop :=
  ids.Nodup ∧ ∀ id, id ∈ ids ↔ ∃ p, e.proposals id = some p ∧ p.status = .pending

end Engine

end ScpCore.Governance
