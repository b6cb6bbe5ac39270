import ScpCore.EventProof
import ScpCore.EventCheckpoint
import ScpCore.EventTiered
import ScpCore.Saturating

/-! Pruning of an event log behind a checkpoint. The boundary that the retention
windows give is only reported: the log is always cut at the checkpoint, and what
is cut off is proved against the root that the checkpoint claims. -/

namespace ScpCore.EventLog

open Merkle

inductive EventType
  | contextCreated | contextClosing | contextClosed | contextExpired | memberJoined | memberLeft
  | roleAssigned | tokenRevoked | messageSent | outletRegistered | outletUpdated | outletInvoked
  | outletVerified | outletInterfaceEstablished | governanceAction | consistencyCheckpoint
  | absenceProofRequested | memberBlocked | keyEpochAdvance | mediaSessionStarted
  | mediaSessionEnded | paymentReceived | economicPolicyChanged | economicPolicyApplied
  | spendingUcanGranted | spendingUcanRevoked | governanceProposalCreated | governanceVoteCast
  | governanceVoteWithdrawn | governanceProposalResolved | governanceConflictDetected
  | governanceConflictResolved | governanceDeadlockRecovery | governanceActionExecuted
  | provenanceAttached | provenanceReceived | adminTransferred | ceilingModified
  | ceilingModificationPending | thresholdModified | signerAdded | signerRemoved
  | childContextCreated | contextPromoted | contentKeysRotated | memberReset | memberSuspended
  | memberSuspendedAll | memberUnblocked | accessRestored | governanceReconfigured
  | governanceFreezeExpired | hardRateLimitModified | economicPolicyLocked
  | contextMigrationStarted | outletRemoved | pruningPolicyModified | commitBroadcasted
  | commitBroadcastPending | contextTombstoned | contextMigrationCancelled | ttlExtended
  | ttlExtensionRejected | accessRevoked | spendApproved | paymentCaptureFailed
  | consequenceTriggered | consequenceEnforced | consequenceEnforcementFailed
  | consequenceEscalatedToSuspendAll | commitBroadcastSucceeded | commitBroadcastFailed
  | recoveryEpochAdvanced | appBound | appUnbound | crossContextOutletInvoked
  | crossContextDivergenceMarker | pseudonymRotationPolicyModified
  deriving DecidableEq

/-- Governance, membership and lifecycle events, kept longer than the others. -/
def isStructuralEvent : EventType → Bool
  | .contextCreated | .memberJoined | .memberLeft | .roleAssigned | .governanceAction
  | .contextClosing | .contextClosed | .contextExpired | .memberBlocked
  | .consistencyCheckpoint | .adminTransferred | .ceilingModified | .ceilingModificationPending
  | .thresholdModified | .signerAdded | .signerRemoved | .childContextCreated
  | .contextPromoted | .contentKeysRotated | .memberReset | .memberSuspended
  | .memberSuspendedAll | .memberUnblocked | .accessRestored | .accessRevoked
  | .governanceReconfigured | .governanceFreezeExpired | .hardRateLimitModified
  | .economicPolicyLocked | .contextMigrationStarted | .contextMigrationCancelled
  | .contextTombstoned | .outletRemoved | .pruningPolicyModified | .ttlExtended
  | .ttlExtensionRejected | .recoveryEpochAdvanced | .spendApproved | .consequenceTriggered
  | .consequenceEnforced | .consequenceEnforcementFailed | .consequenceEscalatedToSuspendAll
  | .appBound | .appUnbound | .crossContextDivergenceMarker | .pseudonymRotationPolicyModified => true
  | .tokenRevoked | .messageSent | .outletRegistered | .outletUpdated | .outletInvoked
  | .outletVerified | .outletInterfaceEstablished | .absenceProofRequested | .keyEpochAdvance
  | .mediaSessionStarted | .mediaSessionEnded | .paymentReceived | .economicPolicyChanged
  | .economicPolicyApplied | .spendingUcanGranted | .spendingUcanRevoked
  | .governanceProposalCreated | .governanceVoteCast | .governanceVoteWithdrawn
  | .governanceProposalResolved | .governanceConflictDetected | .governanceConflictResolved
  | .governanceDeadlockRecovery | .governanceActionExecuted | .provenanceAttached
  | .provenanceReceived | .commitBroadcasted | .commitBroadcastPending
  | .commitBroadcastSucceeded | .commitBroadcastFailed | .paymentCaptureFailed
  | .crossContextOutletInvoked => false

/-- The retention policy, without its checkpoint count. -/
structure PruningConfig where
  retentionSecs : Option ℕ
  structuralRetentionMultiplier : ℕ
  deriving DecidableEq

/-- Thirty days. -/
def minRetentionSecs : ℕ := 2592000

def PruningConfig.effectiveRetentionSecs (config : PruningConfig) : Option ℕ :=
  config.retentionSecs.map (max · minRetentionSecs)

def PruningConfig.effectiveRetention (config : PruningConfig) (retentionSecs : ℕ)
    (eventType : EventType) : ℕ :=
  if isStructuralEvent eventType then
    saturatingMul retentionSecs config.structuralRetentionMultiplier/10000
  else retentionSecs

/-- The comparison that marks an event as outside its window. -/
def PruningConfig.expired (config : PruningConfig) (retentionSecs now : ℕ)
    (event : Event EventType) : Bool :=
  event.timestamp < now-config.effectiveRetention retentionSecs event.eventType

/-- The loop of the prune boundary. -/
def boundaryLoop (config : PruningConfig) (retentionSecs now : ℕ)
    (events : List (Event EventType)) : ℕ :=
  events.foldl (fun boundary event =>
    if config.expired retentionSecs now event then event.sequence+1 else boundary) 0

def computePruneBoundary (events : List (Event EventType)) (checkpointEventCount : ℕ)
    (config : PruningConfig) (now : ℕ) : ℕ :=
  config.effectiveRetentionSecs.elim checkpointEventCount (fun retentionSecs =>
    min (boundaryLoop config retentionSecs now (events.take checkpointEventCount))
      checkpointEventCount)

def estimatedEventSize (event : Event EventType) : ℕ :=
  event.payload.length+event.actorDid.length+(32+64+8+8+2)

structure PrunedInclusionProof where
  leafHash : Hash
  leafIndex : ℕ
  path : List ProofStep
  checkpointRoot : Hash
  checkpointEventCount : ℕ
  deriving DecidableEq

structure CheckpointedProof where
  prunedProof : PrunedInclusionProof
  checkpoint : ConsistencyCheckpoint
  deriving DecidableEq

structure TruncatedEventLog (κ : Type) where
  checkpoint : ConsistencyCheckpoint
  prunedLeafHashes : List Hash
  prunedTreeLayers : List (List Hash)
  tailLog : Log κ
  prunedEventCount : ℕ

/-- The step past node `idx` of a layer; none where the node has no sibling and is
promoted. -/
def siblingStep (idx : ℕ) (layer : List Hash) : List ProofStep :=
  let siblingIdx := idx ^^^ 1
  if siblingIdx < layer.length then
    [⟨layer.getD siblingIdx 0, if idx%2 = 0 then .right else .left⟩]
  else []

/-- The loop over the interior layers. -/
def layerSteps : ℕ → List (List Hash) → List ProofStep
  | _, [] => []
  | idx, layer :: layers => siblingStep idx layer ++ layerSteps (idx/2) layers

def buildProofPath (leafIdx : ℕ) (leaves : List Hash) (treeLayers : List (List Hash)) :
    List ProofStep :=
  if leaves.length ≤ 1 then []
  else siblingStep leafIdx leaves ++
    layerSteps (leafIdx/2) (treeLayers.take (treeLayers.length-1))

section Truncated
variable {κ : Type} (C : LogCrypto κ)

def TruncatedEventLog.fromLogAndCheckpoint (log : Log κ) (checkpoint : ConsistencyCheckpoint) :
    Except EventLogError (TruncatedEventLog κ) := do
  require (checkpoint.eventCount ≤ log.eventCount) .emptyLog
  let prunedLeaves := log.leaves.take checkpoint.eventCount
  pure ⟨checkpoint, prunedLeaves, recomputeTree C prunedLeaves,
    TieredEventLog.rebuild C log.contextId (log.leaves.drop checkpoint.eventCount),
    checkpoint.eventCount⟩

def TruncatedEventLog.provePrunedInclusion (truncated : TruncatedEventLog κ) (leafIndex : ℕ) :
    Except EventLogError PrunedInclusionProof := do
  require (leafIndex < truncated.prunedEventCount)
    (.leafIndexOutOfBounds leafIndex truncated.prunedEventCount)
  pure ⟨truncated.prunedLeafHashes.getD leafIndex 0, leafIndex,
    buildProofPath leafIndex truncated.prunedLeafHashes truncated.prunedTreeLayers,
    truncated.checkpoint.merkleRoot, truncated.prunedEventCount⟩

def TruncatedEventLog.proveCheckpointed (truncated : TruncatedEventLog κ) (leafIndex : ℕ) :
    Except EventLogError CheckpointedProof := do
  let prunedProof ← truncated.provePrunedInclusion leafIndex
  pure ⟨prunedProof, truncated.checkpoint⟩

/-- The walk the verifiers share. -/
def walkPath (leafHash : Hash) (path : List ProofStep) : Hash :=
  path.foldl (fun current step => step.apply C current) leafHash

def verifyPrunedInclusion (proof : PrunedInclusionProof) : Bool :=
  walkPath C proof.leafHash proof.path = proof.checkpointRoot

def verifyCheckpointedProof (proof : CheckpointedProof) : Bool :=
  proof.prunedProof.checkpointRoot = proof.checkpoint.merkleRoot &&
    verifyPrunedInclusion C proof.prunedProof

end Truncated

structure CompactProof where
  leafHash : Hash
  leafIndex : ℕ
  path : List ProofStep
  checkpointMerkleRoot : Hash
  checkpointSeq : ℕ
  deriving DecidableEq

structure PruningResult where
  eventsPruned : ℕ
  bytesReclaimed : ℕ
  leafHashesRetained : ℕ
  checkpointSeq : ℕ
  oldestRetainedSeq : ℕ
  deriving DecidableEq

inductive PruningError
  | noCheckpoint
  | nothingToPrune
  | leafHashNotAvailable (index : ℕ)
  | checkpointMismatch
  | eventLogError (error : EventLogError)
  deriving DecidableEq

/-- The error a failed pruned proof is reported as. -/
def PruningError.ofProof : EventLogError → PruningError
  | .leafIndexOutOfBounds index _ => .leafHashNotAvailable index
  | other => .eventLogError other

section Prune
variable (C : LogCrypto EventType)

def pruneBeforeCheckpoint (log : Log EventType) (checkpoint : ConsistencyCheckpoint)
    (events : List (Event EventType)) (config : PruningConfig) (now : ℕ) :
    Except PruningError (TruncatedEventLog EventType × PruningResult) := do
  require (checkpoint.eventCount ≠ 0) .noCheckpoint
  require (checkpoint.eventCount ≤ log.eventCount) .checkpointMismatch
  let pruneBoundary := computePruneBoundary events checkpoint.eventCount config now
  require (pruneBoundary ≠ 0) .nothingToPrune
  let bytesReclaimed := ((events.take pruneBoundary).map estimatedEventSize).sum
  let truncated ← (TruncatedEventLog.fromLogAndCheckpoint C log checkpoint).mapError .eventLogError
  pure (truncated, ⟨pruneBoundary, bytesReclaimed, pruneBoundary, checkpoint.eventCount,
    pruneBoundary⟩)

def compactProofForPrunedEvent (truncatedLog : TruncatedEventLog EventType) (leafIndex : ℕ) :
    Except PruningError CompactProof := do
  let prunedProof ← (truncatedLog.provePrunedInclusion leafIndex).mapError .ofProof
  pure ⟨prunedProof.leafHash, prunedProof.leafIndex, prunedProof.path, prunedProof.checkpointRoot,
    prunedProof.checkpointEventCount⟩

def verifyCompactProof (proof : CompactProof) : Bool :=
  walkPath C proof.leafHash proof.path = proof.checkpointMerkleRoot

end Prune

theorem fromLogAndCheckpoint_ok {κ : Type} {C : LogCrypto κ} {log : Log κ}
    {checkpoint : ConsistencyCheckpoint} (h : checkpoint.eventCount ≤ log.eventCount) :
    TruncatedEventLog.fromLogAndCheckpoint C log checkpoint =
      .ok ⟨checkpoint, log.leaves.take checkpoint.eventCount,
        layers (hashPair C) (log.leaves.take checkpoint.eventCount),
        TieredEventLog.rebuild C log.contextId (log.leaves.drop checkpoint.eventCount),
        checkpoint.eventCount⟩ := by
  rw [← recomputeTree_eq]
  simp [TruncatedEventLog.fromLogAndCheckpoint, require, h]

section Results
variable {C : LogCrypto EventType} {log : Log EventType} {checkpoint : ConsistencyCheckpoint}
  {events : List (Event EventType)} {config : PruningConfig} {now : ℕ}
  {truncated : TruncatedEventLog EventType} {result : PruningResult}

/-- What a pruning that is carried out makes. -/
structure Pruned (C : LogCrypto EventType) (log : Log EventType) (checkpoint : ConsistencyCheckpoint)
    (boundary : ℕ) (truncated : TruncatedEventLog EventType) (result : PruningResult) : Prop where
  nonempty : 0 < checkpoint.eventCount
  covered : checkpoint.eventCount ≤ log.leaves.length
  leaves : truncated.prunedLeafHashes = log.leaves.take checkpoint.eventCount
  layers : truncated.prunedTreeLayers =
    layers (hashPair C) (log.leaves.take checkpoint.eventCount)
  prunedEventCount : truncated.prunedEventCount = checkpoint.eventCount
  anchor : truncated.checkpoint = checkpoint
  eventsPruned : result.eventsPruned = boundary
  oldestRetainedSeq : result.oldestRetainedSeq = boundary

theorem pruneBeforeCheckpoint_ok
    (ok : pruneBeforeCheckpoint C log checkpoint events config now = .ok (truncated, result)) :
    Pruned C log checkpoint (computePruneBoundary events checkpoint.eventCount config now)
      truncated result := by
  simp only [pruneBeforeCheckpoint, bind_ok_iff, exists_unit_iff, mapError_ok_iff, pure_ok_iff,
    require_ok_iff, decide_eq_true_eq, Prod.mk.injEq] at ok
  obtain ⟨hpos, hcount, _, made, hmade, rfl, rfl⟩ := ok
  rw [fromLogAndCheckpoint_ok hcount, Except.ok.injEq] at hmade
  subst hmade
  exact ⟨Nat.pos_of_ne_zero hpos, hcount, rfl, rfl, rfl, rfl, rfl, rfl⟩

/-- How long an event of this type is to be kept. -/
def PruningConfig.window (config : PruningConfig) (secs : ℕ) (eventType : EventType) : ℕ :=
  if isStructuralEvent eventType then
    max secs minRetentionSecs*config.structuralRetentionMultiplier/10000
  else max secs minRetentionSecs

/-- The event is still inside its own window. -/
def PruningConfig.InWindow (config : PruningConfig) (secs now : ℕ) (event : Event EventType) :
    Prop := now-config.window secs event.eventType ≤ event.timestamp

theorem expired_of_not_inWindow {secs : ℕ} {event : Event EventType}
    (h : ¬ config.InWindow secs now event) :
    config.expired (max secs minRetentionSecs) now event = true := by
  -- The multiplication saturates, so the window compared with is at most the exact one.
  have hle : config.effectiveRetention (max secs minRetentionSecs) event.eventType ≤
      config.window secs event.eventType := by
    unfold PruningConfig.effectiveRetention PruningConfig.window saturatingMul
    by_cases hs : isStructuralEvent event.eventType = true
    · rw [if_pos hs, if_pos hs]
      exact Nat.div_le_div_right (Nat.min_le_left _ _)
    · rw [if_neg hs, if_neg hs]
  unfold PruningConfig.InWindow at h
  unfold PruningConfig.expired
  rw [decide_eq_true_eq]
  omega

/-- Event `i` has sequence `i`. -/
def Sequenced (events : List (Event EventType)) : Prop :=
  ∀ (i : ℕ) (event : Event EventType), events[i]? = some event → event.sequence = i

/-- The loop ends one past the last event marked as expired. -/
theorem boundaryLoop_spec (config : PruningConfig) (retentionSecs now : ℕ)
    {events : List (Event EventType)} (hseq : Sequenced events) :
    (∀ (i : ℕ) (event : Event EventType), events[i]? = some event →
      config.expired retentionSecs now event = true →
      i < boundaryLoop config retentionSecs now events) ∧
    (boundaryLoop config retentionSecs now events = 0 ∨
      ∃ (i : ℕ) (event : Event EventType), events[i]? = some event ∧
        config.expired retentionSecs now event = true ∧
        boundaryLoop config retentionSecs now events = i+1) := by
  -- By the last event: an expired one moves the boundary past everything.
  induction events using List.reverseRecOn with
  | nil => simp [boundaryLoop]
  | append_singleton events last ih =>
    have hsub : ∀ (i : ℕ) (event : Event EventType), events[i]? = some event →
        (events ++ [last])[i]? = some event := by
      intro i event h
      rw [List.getElem?_append_left (List.getElem?_eq_some_iff.mp h).1, h]
    have hlast : last.sequence = events.length := hseq _ last (by simp)
    obtain ⟨hall, htop⟩ := ih (fun i event h => hseq i event (hsub i event h))
    have hloop : boundaryLoop config retentionSecs now (events ++ [last]) =
        if config.expired retentionSecs now last then last.sequence+1
        else boundaryLoop config retentionSecs now events := by
      simp [boundaryLoop, List.foldl_append]
    rw [hloop]
    by_cases hexp : config.expired retentionSecs now last = true
    · rw [if_pos hexp, hlast]
      refine ⟨?_, Or.inr ⟨events.length, last, by simp, hexp, rfl⟩⟩
      intro i event h _
      have hlt := (List.getElem?_eq_some_iff.mp h).1
      rwa [List.length_append, List.length_singleton] at hlt
    · rw [if_neg hexp]
      refine ⟨?_, ?_⟩
      · intro i event h he
        by_cases hi : i < events.length
        · rw [List.getElem?_append_left hi] at h
          exact hall i event h he
        · rw [List.getElem?_append_right (by omega), List.getElem?_singleton] at h
          by_cases hzero : i-events.length = 0
          · rw [if_pos hzero, Option.some.injEq] at h
            rw [← h] at he
            exact absurd he hexp
          · rw [if_neg hzero] at h
            cases h
      · rcases htop with hzero | ⟨i, event, h, he, hb⟩
        · exact Or.inl hzero
        · exact Or.inr ⟨i, event, hsub i event h, he, hb⟩

/-- Nothing still in its window lies below the boundary reported, and the count of
the log made agrees with the count reported. -/
structure WindowsKept (events : List (Event EventType)) (config : PruningConfig) (secs now : ℕ)
    (truncated : TruncatedEventLog EventType) (result : PruningResult) : Prop where
  kept : ∀ event ∈ events, config.InWindow secs now event →
    ¬ event.sequence < result.oldestRetainedSeq
  count : truncated.prunedEventCount = result.eventsPruned

/-- Pruning respects the windows exactly where every event behind the checkpoint is
supplied and has outlived its own window: the boundary is the checkpoint then. -/
theorem prune_keeps_windows_iff {secs : ℕ} (hseq : Sequenced events)
    (hsecs : config.retentionSecs = some secs)
    (ok : pruneBeforeCheckpoint C log checkpoint events config now = .ok (truncated, result)) :
    WindowsKept events config secs now truncated result ↔
      checkpoint.eventCount ≤ events.length ∧
        ∀ event ∈ events.take checkpoint.eventCount, ¬ config.InWindow secs now event := by
  have hp := pruneBeforeCheckpoint_ok ok
  have hpos := hp.nonempty
  have hboundary : computePruneBoundary events checkpoint.eventCount config now =
      min (boundaryLoop config (max secs minRetentionSecs) now (events.take checkpoint.eventCount))
        checkpoint.eventCount := by
    simp [computePruneBoundary, PruningConfig.effectiveRetentionSecs, hsecs]
  have htake : Sequenced (events.take checkpoint.eventCount) := by
    intro i event h
    apply hseq i event
    rw [List.getElem?_take] at h
    exact (ite_eq_iff.mp h).elim (fun h => h.2) (fun h => nomatch h.2)
  have hold := hp.oldestRetainedSeq
  have hcount := hp.eventsPruned
  rw [hboundary] at hold hcount
  constructor
  · intro hkept
    have hfull : result.eventsPruned = checkpoint.eventCount :=
      hkept.count.symm.trans hp.prunedEventCount
    -- The loop got as far as the checkpoint, so the last event before it has expired.
    rcases (boundaryLoop_spec config (max secs minRetentionSecs) now htake).2 with
      hzero | ⟨i, event, hget, _, hi⟩
    · omega
    · have hlt := (List.getElem?_eq_some_iff.mp hget).1
      rw [List.length_take] at hlt
      refine ⟨by omega, ?_⟩
      intro event hmem hin
      obtain ⟨j, hj⟩ := List.mem_iff_getElem?.mp hmem
      have hjlt := (List.getElem?_eq_some_iff.mp hj).1
      rw [List.length_take] at hjlt
      apply hkept.kept event (List.mem_of_mem_take hmem) hin
      rw [htake j event hj]
      omega
  · intro ⟨hlen, hout⟩
    have hlast : checkpoint.eventCount-1 < (events.take checkpoint.eventCount).length := by
      rw [List.length_take]
      omega
    have hfar := (boundaryLoop_spec config _ now htake).1 _ _ (List.getElem?_eq_getElem hlast)
      (expired_of_not_inWindow (hout _ (List.getElem_mem hlast)))
    refine ⟨?_, by rw [hp.prunedEventCount]; omega⟩
    intro event hmem hin hbelow
    obtain ⟨j, hj⟩ := List.mem_iff_getElem?.mp hmem
    rw [hseq j event hj] at hbelow
    have hlt : j < checkpoint.eventCount := by omega
    have hbehind : event ∈ events.take checkpoint.eventCount := by
      apply List.mem_iff_getElem?.mpr
      exact ⟨j, by rw [List.getElem?_take, if_pos hlt, hj]⟩
    exact hout event hbehind hin

end Results

section Paths
variable {κ : Type} {C : LogCrypto κ}

theorem walkPath_append (x : Hash) (path rest : List ProofStep) :
    walkPath C x (path ++ rest) = walkPath C (walkPath C x path) rest := by
  rw [walkPath, List.foldl_append]
  rfl

/-- One step leads from a node to its parent. -/
theorem walkPath_siblingStep {layer : List Hash} {idx : ℕ} (h : idx < layer.length) :
    walkPath C (layer.getD idx 0) (siblingStep idx layer) =
      (pairUp (hashPair C) layer).getD (idx/2) 0 := by
  have hup := pairUp_getElem? (hashPair C) layer (idx/2)
  by_cases heven : idx%2 = 0
  · have hsib : idx ^^^ 1 = idx+1 := Nat.xor_one_of_even (Nat.even_iff.mpr heven)
    have hidx : 2*(idx/2) = idx := by omega
    rw [List.getD_eq_getElem?_getD (l := pairUp (hashPair C) layer), hup, hidx]
    unfold siblingStep
    rw [hsib]
    by_cases hlt : idx+1 < layer.length
    · simp only [hlt, heven, if_true]
      rfl
    · -- The last node of an odd layer is promoted.
      simp only [hlt, if_false, walkPath, List.foldl_nil, List.getD_eq_getElem?_getD]
  · have hsib : idx ^^^ 1 = idx-1 := Nat.xor_one_of_odd (Nat.odd_iff.mpr (by omega))
    have hidx : 2*(idx/2) = idx-1 := by omega
    have hpair : idx-1+1 = idx := by omega
    have hlt : idx-1 < layer.length := by omega
    rw [List.getD_eq_getElem?_getD (l := pairUp (hashPair C) layer), hup, hidx, hpair, if_pos h]
    unfold siblingStep
    rw [hsib]
    simp only [hlt, heven, if_true, if_false]
    rfl

/-- The path built for a leaf leads from it to the tree hash. -/
theorem walkPath_buildProofPath {leaves : List Hash} {idx : ℕ} (h : idx < leaves.length) :
    walkPath C (leaves.getD idx 0) (buildProofPath idx leaves (layers (hashPair C) leaves)) =
      merkleTreeHash C leaves := by
  -- The part of the path above the leaves is the path of the layer above them.
  induction hn : leaves.length using Nat.strong_induction_on generalizing leaves idx with
  | _ n ih =>
    by_cases hsmall : leaves.length ≤ 1
    · obtain ⟨a, rfl⟩ : ∃ a, leaves = [a] := List.length_eq_one_iff.mp (by omega)
      rw [List.length_singleton] at h
      obtain rfl : idx = 0 := by omega
      simp [buildProofPath, walkPath, merkleTreeHash]
    · have hlen := length_pairUp (f := hashPair C) leaves
      have hstep := walkPath_siblingStep (C := C) h
      have hup : merkleTreeHash C (pairUp (hashPair C) leaves) = merkleTreeHash C leaves :=
        treeHash_pairUp leaves
      rw [buildProofPath, if_neg hsmall, walkPath_append, hstep, layers_cons (by omega)]
      by_cases htop : (pairUp (hashPair C) leaves).length ≤ 1
      · obtain ⟨a, ha⟩ : ∃ a, pairUp (hashPair C) leaves = [a] :=
          List.length_eq_one_iff.mp (by omega)
        rw [ha, List.length_singleton] at hlen
        have hzero : idx/2 = 0 := by omega
        rw [← hup, layers_small htop, ha, hzero]
        simp [layerSteps, walkPath, merkleTreeHash]
      · have hbound : idx/2 < (pairUp (hashPair C) leaves).length := by omega
        have habove := ih _ (by omega) hbound rfl
        rw [← hup, ← habove, buildProofPath, if_neg htop, layers_cons (by omega)]
        simp [layerSteps]

theorem provePrunedInclusion_ok {truncated : TruncatedEventLog κ} {leafIndex : ℕ}
    (h : leafIndex < truncated.prunedEventCount) :
    truncated.provePrunedInclusion leafIndex =
      .ok ⟨truncated.prunedLeafHashes.getD leafIndex 0, leafIndex,
        buildProofPath leafIndex truncated.prunedLeafHashes truncated.prunedTreeLayers,
        truncated.checkpoint.merkleRoot, truncated.prunedEventCount⟩ := by
  simp [TruncatedEventLog.provePrunedInclusion, require, h]

end Paths

section Provable
variable {C : LogCrypto EventType} {log : Log EventType} {checkpoint : ConsistencyCheckpoint}
  {truncated : TruncatedEventLog EventType}

/-- Leaf `i` of the log is proved from the truncated log, both ways. -/
structure Provable (C : LogCrypto EventType) (log : Log EventType)
    (truncated : TruncatedEventLog EventType) (i : ℕ) : Prop where
  compact : ∃ proof, compactProofForPrunedEvent truncated i = .ok proof ∧
    log.leaves[i]? = some proof.leafHash ∧ verifyCompactProof C proof = true
  checkpointed : ∃ proof, truncated.proveCheckpointed i = .ok proof ∧
    verifyCheckpointedProof C proof = true

theorem Pruned.provable {boundary : ℕ} {result : PruningResult}
    (h : Pruned C log checkpoint boundary truncated result)
    (hroot : checkpoint.merkleRoot = merkleTreeHash C (log.leaves.take checkpoint.eventCount))
    {i : ℕ} (hi : i < truncated.prunedEventCount) : Provable C log truncated i := by
  have hlt : i < (log.leaves.take checkpoint.eventCount).length := by
    have hcount := h.prunedEventCount
    have hcovered := h.covered
    rw [List.length_take]
    omega
  have hproof := provePrunedInclusion_ok hi
  have hwalk := walkPath_buildProofPath (C := C) hlt
  rw [h.leaves, h.layers, h.anchor] at hproof
  have hleaf : log.leaves[i]? = some ((log.leaves.take checkpoint.eventCount).getD i 0) := by
    have hget := List.getElem?_eq_getElem hlt
    rw [List.getD_eq_getElem?_getD, hget, Option.getD_some, ← hget, List.getElem?_take, if_pos]
    rw [List.length_take] at hlt
    omega
  refine ⟨?_, ?_⟩
  · refine ⟨_, by rw [compactProofForPrunedEvent, hproof]; rfl, hleaf, ?_⟩
    rw [verifyCompactProof, decide_eq_true_eq, hwalk, hroot]
  · refine ⟨_, by rw [TruncatedEventLog.proveCheckpointed, hproof]; rfl, ?_⟩
    simp only [verifyCheckpointedProof, verifyPrunedInclusion, h.anchor, hwalk, hroot,
      decide_true, Bool.and_true]

/-- The claims a pruning makes for the checkpoint it takes: what it cuts off stays
provable, and a root that is not the log's is refused. -/
structure KeepsProofs (C : LogCrypto EventType) (log : Log EventType)
    (checkpoint : ConsistencyCheckpoint) (events : List (Event EventType)) (config : PruningConfig)
    (now : ℕ) : Prop where
  provable : ∀ truncated result,
    pruneBeforeCheckpoint C log checkpoint events config now = .ok (truncated, result) →
    ∀ i < truncated.prunedEventCount, Provable C log truncated i
  refused : checkpoint.merkleRoot ≠ merkleTreeHash C (log.leaves.take checkpoint.eventCount) →
    pruneBeforeCheckpoint C log checkpoint events config now = .error .checkpointMismatch

/-- Only a checkpoint that counts past the log is refused as a mismatch. -/
theorem prune_mismatch_iff {events : List (Event EventType)} {config : PruningConfig} {now : ℕ} :
    pruneBeforeCheckpoint C log checkpoint events config now = .error .checkpointMismatch ↔
      log.leaves.length < checkpoint.eventCount := by
  have hmade : checkpoint.eventCount ≤ log.leaves.length →
      ∀ e, TruncatedEventLog.fromLogAndCheckpoint C log checkpoint ≠ .error e := by
    intro hlen e he
    rw [fromLogAndCheckpoint_ok hlen] at he
    cases he
  simp only [pruneBeforeCheckpoint, bind_error_iff, require_error_iff, require_ok_iff,
    exists_unit_iff, decide_eq_true_eq, decide_eq_false_iff_not]
  have hcount : log.eventCount = log.leaves.length := rfl
  constructor
  · intro h
    rcases h with h | ⟨_, h | ⟨hlen, h | ⟨_, h | ⟨_, _, h⟩⟩⟩⟩
    · cases h.2
    · omega
    · cases h.2
    · obtain ⟨e, he, _⟩ := (mapError_error_iff _ _ _).mp h
      exact absurd he (hmade (by omega) e)
    · exact absurd h (pure_ne_error _ _)
  · intro h
    exact Or.inr ⟨by omega, Or.inl ⟨by omega, trivial⟩⟩

/-- Pruning keeps its proofs exactly where the checkpoint's root is that of the
leaves it covers, or it counts more events than the log has. -/
theorem prune_keeps_proofs_iff (C : LogCrypto EventType) (log : Log EventType)
    (checkpoint : ConsistencyCheckpoint) (events : List (Event EventType)) (config : PruningConfig)
    (now : ℕ) :
    KeepsProofs C log checkpoint events config now ↔
      (checkpoint.merkleRoot = merkleTreeHash C (log.leaves.take checkpoint.eventCount) ∨
        log.leaves.length < checkpoint.eventCount) := by
  constructor
  · intro h
    by_cases hroot : checkpoint.merkleRoot =
        merkleTreeHash C (log.leaves.take checkpoint.eventCount)
    · exact Or.inl hroot
    · exact Or.inr (prune_mismatch_iff.mp (h.refused hroot))
  · intro h
    rcases h with hroot | hlen
    · refine ⟨?_, fun hne => absurd hroot hne⟩
      intro truncated result ok i hi
      exact (pruneBeforeCheckpoint_ok ok).provable hroot hi
    · have herr : pruneBeforeCheckpoint C log checkpoint events config now =
          .error .checkpointMismatch := prune_mismatch_iff.mpr hlen
      refine ⟨?_, fun _ => herr⟩
      intro truncated result ok
      rw [herr] at ok
      cases ok

end Provable

-- A log of three leaves, pruned a hundred days after its first event.

def pruningCrypto : LogCrypto EventType where
  sha256 := sampleCrypto.sha256
  serialize event := .ok (beBytes 8 event.sequence ++ hashBytes event.prevHash)
  eventTypeTag _ := 8
  extractPublicKeyFromDid _ := .ok []
  verifyEd25519Signature _ _ _ := .ok ()

def pruningLog : Log EventType := TieredEventLog.rebuild pruningCrypto "ctx" [1, 2, 3]

def pruningCheckpoint (eventCount : ℕ) : ConsistencyCheckpoint := ⟨"ctx", eventCount, 7⟩

/-- Thirty days for operational events, ninety for structural ones. -/
def pruningConfig : PruningConfig := ⟨some 2592000, 30000⟩

def pruningEvent (eventType : EventType) (days sequence : ℕ) : Event EventType :=
  ⟨eventType, [], days*86400, sequence, [], 0, []⟩

/-- A structural event in its window lies before an expired one, and an event in its
window lies behind the checkpoint. -/
def pruningEvents : List (Event EventType) :=
  [pruningEvent .contextCreated 60 0, pruningEvent .messageSent 65 1,
    pruningEvent .messageSent 90 2]

def pruningNow : ℕ := 100*86400

instance (config : PruningConfig) (secs now : ℕ) (event : Event EventType) :
    Decidable (config.InWindow secs now event) :=
  inferInstanceAs (Decidable (_ ≤ _))

theorem sequenced_of_range {events : List (Event EventType)}
    (h : events.map (·.sequence) = List.range events.length) : Sequenced events := by
  intro i event hget
  have hi := (List.getElem?_eq_some_iff.mp hget).1
  have hseq : (events.map (·.sequence))[i]? = some event.sequence := by
    rw [List.getElem?_map, hget, Option.map_some]
  rw [h, List.getElem?_range hi, Option.some.injEq] at hseq
  exact hseq.symm

def expiredEvents : List (Event EventType) :=
  [pruningEvent .messageSent 60 0, pruningEvent .messageSent 65 1]

def prunedExpired : TruncatedEventLog EventType × PruningResult :=
  okGet (pruneBeforeCheckpoint pruningCrypto pruningLog (pruningCheckpoint 2) expiredEvents
    pruningConfig pruningNow) (by decide +kernel)

theorem prune_keeps_windows_iff_sample :
    WindowsKept expiredEvents pruningConfig 2592000 pruningNow prunedExpired.1 prunedExpired.2 := by
  have ok : pruneBeforeCheckpoint pruningCrypto pruningLog (pruningCheckpoint 2) expiredEvents
      pruningConfig pruningNow = .ok (prunedExpired.1, prunedExpired.2) :=
    eq_okGet _ (by decide +kernel)
  apply (prune_keeps_windows_iff (sequenced_of_range (by decide +kernel)) rfl ok).mpr
  decide +kernel

def prunedInside : TruncatedEventLog EventType × PruningResult :=
  okGet (pruneBeforeCheckpoint pruningCrypto pruningLog (pruningCheckpoint 3) pruningEvents
    pruningConfig pruningNow) (by decide +kernel)

theorem prunedInside_ok :
    pruneBeforeCheckpoint pruningCrypto pruningLog (pruningCheckpoint 3) pruningEvents
      pruningConfig pruningNow = .ok (prunedInside.1, prunedInside.2) :=
  eq_okGet _ (by decide +kernel)

/-- The structural event is below the boundary reported, and the log is cut past it. -/
theorem prune_cuts_inside_windows :
    Sequenced pruningEvents ∧ pruningConfig.retentionSecs = some 2592000 ∧
    pruneBeforeCheckpoint pruningCrypto pruningLog (pruningCheckpoint 3) pruningEvents
      pruningConfig pruningNow = .ok (prunedInside.1, prunedInside.2) ∧
    pruningConfig.InWindow 2592000 pruningNow (pruningEvent .contextCreated 60 0) ∧
    0 < prunedInside.2.oldestRetainedSeq ∧
    prunedInside.1.prunedEventCount = 3 ∧ prunedInside.2.eventsPruned = 2 ∧
    ¬ WindowsKept pruningEvents pruningConfig 2592000 pruningNow prunedInside.1
      prunedInside.2 := by
  have hcount : prunedInside.1.prunedEventCount = 3 ∧ prunedInside.2.eventsPruned = 2 := by
    decide +kernel
  refine ⟨sequenced_of_range (by decide +kernel), rfl, prunedInside_ok, by decide +kernel,
    by decide +kernel, hcount.1, hcount.2, ?_⟩
  intro h
  have hsame := h.count
  omega

/-- A checkpoint over the whole log whose root is not the log's is taken, and the
proof of the first leaf then fails. -/
theorem prune_takes_foreign_root :
    pruneBeforeCheckpoint pruningCrypto pruningLog (pruningCheckpoint 3) pruningEvents
      pruningConfig pruningNow = .ok (prunedInside.1, prunedInside.2) ∧
    ((compactProofForPrunedEvent prunedInside.1 0).map (verifyCompactProof pruningCrypto)) =
      .ok false ∧
    ¬ KeepsProofs pruningCrypto pruningLog (pruningCheckpoint 3) pruningEvents pruningConfig
      pruningNow := by
  have hfalse : (compactProofForPrunedEvent prunedInside.1 0).map
      (verifyCompactProof pruningCrypto) = .ok false := by decide +kernel
  refine ⟨prunedInside_ok, hfalse, ?_⟩
  intro h
  obtain ⟨proof, hproof, _, hverify⟩ :=
    (h.provable _ _ prunedInside_ok 0 (by decide +kernel)).compact
  rw [hproof, Except.map, hverify] at hfalse
  cases hfalse

end ScpCore.EventLog
