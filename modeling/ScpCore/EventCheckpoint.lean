import ScpCore.EventLog

/-! Cross-checkpoint verification. The check recomputes the older root from the
supplied leaves but never the newer one, so it means a prefix exactly where the
supplied leaves are the newer log's. -/

namespace ScpCore.EventLog

open Merkle

/-- The fields of a checkpoint that comparing two of them reads. -/
structure ConsistencyCheckpoint where
  contextId : String
  eventCount : ℕ
  merkleRoot : Hash
  deriving DecidableEq

inductive CrossCheckpointResult
  | consistent
  | divergent
  | contextMismatch
  | orderViolation
  | plausiblyConsistent (eventsBetween : ℕ)
  deriving DecidableEq

def rootsAgree (left right : Hash) : CrossCheckpointResult :=
  if left = right then .consistent else .divergent

section Cross
variable {κ : Type} (C : LogCrypto κ)

def verifyCrossCheckpointWithLeaves (older newer : ConsistencyCheckpoint)
    (newerLeaves : List Hash) : CrossCheckpointResult :=
  if older.contextId ≠ newer.contextId then .contextMismatch
  else if newer.eventCount < older.eventCount then .orderViolation
  else if newerLeaves.length ≠ newer.eventCount then .divergent
  else if older.eventCount = newer.eventCount then rootsAgree older.merkleRoot newer.merkleRoot
  else
    match Checkpoint.computeRootFromLeaves C (newerLeaves.take older.eventCount) with
    | some computedRoot => rootsAgree computedRoot older.merkleRoot
    | none => .divergent

/-- The checkpoint was made of this log. -/
structure CommitsTo (checkpoint : ConsistencyCheckpoint) (log : List Hash) : Prop where
  eventCount : checkpoint.eventCount = log.length
  merkleRoot : checkpoint.merkleRoot = merkleTreeHash C log

/-- Every comparison that the check does make comes out well. -/
structure ComparesWell (older newer : ConsistencyCheckpoint) (leaves : List Hash) : Prop where
  context : older.contextId = newer.contextId
  order : older.eventCount ≤ newer.eventCount
  count : leaves.length = newer.eventCount
  root : older.merkleRoot = if older.eventCount = newer.eventCount then newer.merkleRoot
    else merkleTreeHash C (leaves.take older.eventCount)

/-- What a consistent answer stands for. -/
structure IsPrefixOf (older newer : ConsistencyCheckpoint) (leaves : List Hash) : Prop where
  count : leaves.length = newer.eventCount
  newerRoot : newer.merkleRoot = merkleTreeHash C leaves
  olderRoot : older.merkleRoot = merkleTreeHash C (leaves.take older.eventCount)

variable {C} {older newer : ConsistencyCheckpoint} {leaves : List Hash}

theorem merkleTreeHash_pair (a b : Hash) : merkleTreeHash C [a, b] = hashPair C a b :=
  treeHash_pair a b

theorem rootsAgree_consistent {left right : Hash} :
    rootsAgree left right = .consistent ↔ left = right := by
  unfold rootsAgree
  by_cases h : left = right <;> simp [h]

theorem verifyCross_consistent_iff :
    verifyCrossCheckpointWithLeaves C older newer leaves = .consistent ↔
      ComparesWell C older newer leaves := by
  unfold verifyCrossCheckpointWithLeaves
  rw [Checkpoint.computeRootFromLeaves_eq]
  by_cases hctx : older.contextId = newer.contextId
  · by_cases hord : newer.eventCount < older.eventCount
    · rw [if_neg (by simpa using hctx), if_pos hord]
      refine ⟨nofun, ?_⟩
      intro h
      exact absurd h.order (by omega)
    · by_cases hcount : leaves.length = newer.eventCount
      · rw [if_neg (by simpa using hctx), if_neg hord, if_neg (by simpa using hcount)]
        by_cases heq : older.eventCount = newer.eventCount
        · rw [if_pos heq, rootsAgree_consistent]
          refine ⟨fun h => ⟨hctx, by omega, hcount, by rw [if_pos heq, h]⟩, ?_⟩
          intro h
          have hroot := h.root
          rwa [if_pos heq] at hroot
        · rw [if_neg heq, rootsAgree_consistent]
          refine ⟨fun h => ⟨hctx, by omega, hcount, by rw [if_neg heq, h]⟩, ?_⟩
          intro h
          have hroot := h.root
          rw [if_neg heq] at hroot
          exact hroot.symm
      · rw [if_neg (by simpa using hctx), if_neg hord, if_pos (by simpa using hcount)]
        refine ⟨nofun, ?_⟩
        intro h
        exact absurd h.count hcount
  · rw [if_pos (by simpa using hctx)]
    refine ⟨nofun, ?_⟩
    intro h
    exact absurd h.context hctx

/-- Comparisons that come out well mean a prefix exactly where the newer root is
the root of the leaves. -/
theorem ComparesWell.isPrefixOf_iff (h : ComparesWell C older newer leaves) :
    IsPrefixOf C older newer leaves ↔ newer.merkleRoot = merkleTreeHash C leaves := by
  constructor
  · exact fun hp => hp.newerRoot
  · intro hnewer
    refine ⟨h.count, hnewer, ?_⟩
    have hroot := h.root
    by_cases heq : older.eventCount = newer.eventCount
    · rw [if_pos heq] at hroot
      rw [hroot, hnewer, heq, ← h.count, List.take_length]
    · rwa [if_neg heq] at hroot

/-- Two checkpoints of logs reported consistent over the newer log's leaves: the
older log is the first part of the newer. -/
theorem IsPrefixOf.prefix_of_commits {oldLog newLog : List Hash} {seen : Set (Hash × Hash)}
    (hinj : Set.InjOn (fun p => hashPair C p.1 p.2) seen)
    (hold : ∀ p ∈ nodePairs (hashPair C) (emptyTreeRoot C) oldLog, p ∈ seen)
    (hnew : ∀ p ∈ nodePairs (hashPair C) (emptyTreeRoot C) newLog, p ∈ seen)
    (hleaves : ∀ p ∈ nodePairs (hashPair C) (emptyTreeRoot C) leaves, p ∈ seen)
    (htake : ∀ p ∈ nodePairs (hashPair C) (emptyTreeRoot C) (leaves.take older.eventCount), p ∈ seen)
    (horder : older.eventCount ≤ newer.eventCount)
    (hco : CommitsTo C older oldLog) (hcn : CommitsTo C newer newLog)
    (h : IsPrefixOf C older newer leaves) : oldLog <+: newLog := by
  have hn : leaves = newLog := by
    apply treeHash_inj hinj hleaves hnew
    · rw [h.count, hcn.eventCount]
    · exact h.newerRoot.symm.trans hcn.merkleRoot
  have ho : leaves.take older.eventCount = oldLog := by
    apply treeHash_inj hinj htake hold
    · rw [List.length_take, h.count, ← hco.eventCount]
      omega
    · exact h.olderRoot.symm.trans hco.merkleRoot
  rw [← hn, ← ho]
  exact List.take_prefix _ _

/-- A consistent answer means a prefix exactly where the newer root is the root of
the supplied leaves or a comparison the check makes fails; and over such leaves it
is never given for logs that are no prefix of each other. -/
theorem cross_checkpoint_prefix_iff (older newer : ConsistencyCheckpoint) (leaves : List Hash) :
    ((verifyCrossCheckpointWithLeaves C older newer leaves = .consistent →
        IsPrefixOf C older newer leaves) ↔
      (newer.merkleRoot = merkleTreeHash C leaves ∨ ¬ ComparesWell C older newer leaves)) ∧
    (newer.merkleRoot = merkleTreeHash C leaves →
      ∀ (oldLog newLog : List Hash) (seen : Set (Hash × Hash)),
        Set.InjOn (fun p => hashPair C p.1 p.2) seen →
        (∀ l ∈ [oldLog, newLog, leaves, leaves.take older.eventCount],
          ∀ p ∈ nodePairs (hashPair C) (emptyTreeRoot C) l, p ∈ seen) →
        CommitsTo C older oldLog → CommitsTo C newer newLog → ¬ oldLog <+: newLog →
        verifyCrossCheckpointWithLeaves C older newer leaves ≠ .consistent) := by
  refine ⟨?_, ?_⟩
  · rw [verifyCross_consistent_iff]
    by_cases hwell : ComparesWell C older newer leaves
    · simp [hwell, hwell.isPrefixOf_iff]
    · simp [hwell]
  · intro hroot oldLog newLog seen hinj hseen hco hcn hnot hans
    have hwell := verifyCross_consistent_iff.mp hans
    exact hnot ((hwell.isPrefixOf_iff.mpr hroot).prefix_of_commits hinj
      (hseen _ (by simp)) (hseen _ (by simp)) (hseen _ (by simp)) (hseen _ (by simp))
      hwell.order hco hcn)

end Cross

/-- Over the leaves of the newer log a consistent answer means a prefix. -/
theorem cross_checkpoint_prefix_iff_sample :
    let older : ConsistencyCheckpoint := ⟨"ctx", 1, 1⟩
    let newer : ConsistencyCheckpoint := ⟨"ctx", 2, hashPair sampleCrypto 1 2⟩
    verifyCrossCheckpointWithLeaves sampleCrypto older newer [1, 2] = .consistent ∧
      IsPrefixOf sampleCrypto older newer [1, 2] := by
  have hans : verifyCrossCheckpointWithLeaves sampleCrypto ⟨"ctx", 1, 1⟩
      ⟨"ctx", 2, hashPair sampleCrypto 1 2⟩ [1, 2] = .consistent := by
    decide +kernel
  refine ⟨hans, (cross_checkpoint_prefix_iff _ _ _).1.mpr (Or.inl ?_) hans⟩
  rw [merkleTreeHash_pair]

/-- Checkpoints of the logs `[1]` and `[5, 6]`, and the leaves `[1, 2]`: the check
answers consistent, though the first log is no prefix of the second and the newer
root is not the root of the leaves. -/
theorem cross_checkpoint_unchecked_newer :
    let older : ConsistencyCheckpoint := ⟨"ctx", 1, 1⟩
    let newer : ConsistencyCheckpoint := ⟨"ctx", 2, hashPair sampleCrypto 5 6⟩
    verifyCrossCheckpointWithLeaves sampleCrypto older newer [1, 2] = .consistent ∧
      CommitsTo sampleCrypto older [1] ∧ CommitsTo sampleCrypto newer [5, 6] ∧
      ¬ [(1 : Hash)] <+: [5, 6] ∧
      newer.merkleRoot ≠ merkleTreeHash sampleCrypto [1, 2] := by
  refine ⟨by decide +kernel, ⟨rfl, (treeHash_singleton 1).symm⟩, ⟨rfl, ?_⟩, by decide, ?_⟩
  · rw [merkleTreeHash_pair]
  · rw [merkleTreeHash_pair]
    decide +kernel

end ScpCore.EventLog
