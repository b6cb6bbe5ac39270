import ScpCore.EventLog

/-! Consistency proofs of the event log. A proof carries the leaves of the newer tree, and the
verifier rebuilds both roots from them, so the older log is a prefix of the newer one. -/

namespace ScpCore.EventLog

open Merkle

structure ConsistencyProof where
  oldSize : ℕ
  newSize : ℕ
  oldRoot : Hash
  newRoot : Hash
  leafHashes : List Hash
  deriving DecidableEq

section Consistency
variable {κ : Type} (C : LogCrypto κ)

def proveConsistency (log : Log κ) (oldSize newSize : ℕ) : Except EventLogError ConsistencyProof := do
  let total := log.eventCount
  require (total ≠ 0) .emptyLog
  require (!(oldSize = 0 || newSize < oldSize || total < newSize))
    (.leafIndexOutOfBounds (if oldSize = 0 || newSize < oldSize then oldSize else newSize) total)
  pure ⟨oldSize, newSize, Proof.computeRootFromLeaves C (log.leaves.take oldSize),
    Proof.computeRootFromLeaves C (log.leaves.take newSize), log.leaves.take newSize⟩

def verifyConsistency (proof : ConsistencyProof) : Bool :=
  if proof.oldSize = 0 || proof.newSize < proof.oldSize then false
  else if proof.leafHashes.length ≠ proof.newSize then false
  else if proof.leafHashes.length < proof.oldSize then false
  else if Proof.computeRootFromLeaves C (proof.leafHashes.take proof.oldSize) ≠ proof.oldRoot then
    false
  else if Proof.computeRootFromLeaves C proof.leafHashes ≠ proof.newRoot then false
  else true

/-- No two pairs hashed in the trees over the lists collide. -/
def NoCollision (lists : List (List Hash)) : Prop :=
  Set.InjOn (fun p => hashPair C p.1 p.2)
    {p | ∃ l ∈ lists, p ∈ nodePairs (hashPair C) (emptyTreeRoot C) l}

variable {C}

/-- Lists of one length with one root are the same. -/
theorem computeRootFromLeaves_inj {lists : List (List Hash)} (hinj : NoCollision C lists)
    {l r : List Hash} (hl : l ∈ lists) (hr : r ∈ lists) (hlen : l.length = r.length)
    (h : Proof.computeRootFromLeaves C l = Proof.computeRootFromLeaves C r) : l = r := by
  rw [Proof.computeRootFromLeaves, Proof.computeRootFromLeaves, loopedRoot_eq, loopedRoot_eq] at h
  exact treeHash_inj hinj (fun p hp => ⟨l, hl, hp⟩) (fun p hp => ⟨r, hr, hp⟩) hlen h

theorem verifyConsistency_iff {proof : ConsistencyProof} :
    verifyConsistency C proof = true ↔ proof.oldSize ≠ 0 ∧ proof.oldSize ≤ proof.newSize ∧
      proof.leafHashes.length = proof.newSize ∧
      Proof.computeRootFromLeaves C (proof.leafHashes.take proof.oldSize) = proof.oldRoot ∧
      Proof.computeRootFromLeaves C proof.leafHashes = proof.newRoot := by
  unfold verifyConsistency
  split_ifs with hsize hlen hold hroot hnew
  · simp only [Bool.or_eq_true, decide_eq_true_eq] at hsize
    simp only [false_iff]
    omega
  · simp [hlen]
  · simp only [Bool.or_eq_true, decide_eq_true_eq] at hsize
    omega
  · simp [hroot]
  · simp [hnew]
  · simp only [Bool.or_eq_true, decide_eq_true_eq] at hsize
    simp only [not_not] at hlen hroot hnew
    exact ⟨fun _ => ⟨by omega, by omega, hlen, hroot, hnew⟩, fun _ => rfl⟩

theorem proveConsistency_ok {log : Log κ} {oldSize newSize : ℕ} (hpos : 1 ≤ oldSize)
    (hle : oldSize ≤ newSize) (hcount : newSize ≤ log.eventCount) :
    proveConsistency C log oldSize newSize =
      .ok ⟨oldSize, newSize, Proof.computeRootFromLeaves C (log.leaves.take oldSize),
        Proof.computeRootFromLeaves C (log.leaves.take newSize), log.leaves.take newSize⟩ := by
  have htotal : log.eventCount ≠ 0 := by omega
  simp only [proveConsistency, require, htotal, ne_eq, not_false_eq_true, decide_true, if_true,
    Bool.not_eq_true', Bool.or_eq_false_iff, decide_eq_false_iff_not]
  rw [if_pos (by omega)]
  rfl

end Consistency

/-- Every pair of sizes a log has gets a proof of these sizes and their roots that verifies, and a
proof that verifies shows any leaf list with its old root and size to be a prefix of any with its
new root and size. -/
theorem consistency_complete_and_sound {κ : Type} (C : LogCrypto κ) :
    (∀ (log : Log κ) oldSize newSize, 1 ≤ oldSize → oldSize ≤ newSize → newSize ≤ log.eventCount →
      ∃ proof, proveConsistency C log oldSize newSize = .ok proof ∧
        proof.oldSize = oldSize ∧ proof.newSize = newSize ∧
        proof.oldRoot = merkleTreeHash C (log.leaves.take oldSize) ∧
        proof.newRoot = merkleTreeHash C (log.leaves.take newSize) ∧
        proof.leafHashes = log.leaves.take newSize ∧ verifyConsistency C proof = true) ∧
    ∀ (proof : ConsistencyProof) (older newer : List Hash), verifyConsistency C proof = true →
      older.length = proof.oldSize → newer.length = proof.newSize →
      Proof.computeRootFromLeaves C older = proof.oldRoot →
      Proof.computeRootFromLeaves C newer = proof.newRoot →
      NoCollision C [older, newer, proof.leafHashes, proof.leafHashes.take proof.oldSize] →
      older = newer.take proof.oldSize := by
  constructor
  · intro log oldSize newSize hpos hle hcount
    refine ⟨_, proveConsistency_ok hpos hle hcount, rfl, rfl, loopedRoot_eq _, loopedRoot_eq _, rfl,
      verifyConsistency_iff.mpr ?_⟩
    have hlen : (log.leaves.take newSize).length = newSize := by
      rw [List.length_take]
      exact min_eq_left hcount
    refine ⟨by dsimp only; omega, hle, hlen, ?_, rfl⟩
    dsimp only
    rw [List.take_take, min_eq_left hle]
  · intro proof older newer hverify hold hnew holdRoot hnewRoot hinj
    obtain ⟨-, hle, hlen, hroot, hroot'⟩ := verifyConsistency_iff.mp hverify
    have holder : older = proof.leafHashes.take proof.oldSize := by
      apply computeRootFromLeaves_inj hinj (by simp) (by simp)
      · rw [hold, List.length_take]
        omega
      · rw [holdRoot, hroot]
    have hnewer : newer = proof.leafHashes := by
      apply computeRootFromLeaves_inj hinj (by simp) (by simp)
      · rw [hnew, hlen]
      · rw [hnewRoot, hroot']
    rw [holder, hnewer]

/-- One leaf and two of the sample log; the one pair that is hashed collides with no other. -/
theorem consistency_complete_and_sound_sample :
    ∃ proof, proveConsistency sampleCrypto sampleLog 1 2 = .ok proof ∧
      verifyConsistency sampleCrypto proof = true ∧
      NoCollision sampleCrypto [[sampleLeaf], [sampleLeaf, 2], proof.leafHashes,
        proof.leafHashes.take proof.oldSize] ∧
      [sampleLeaf] = [sampleLeaf, 2].take proof.oldSize := by
  obtain ⟨hcomplete, hsound⟩ := consistency_complete_and_sound sampleCrypto
  obtain ⟨proof, hprove, hold, hnew, holdRoot, hnewRoot, hleaves, hverify⟩ :=
    hcomplete sampleLog 1 2 le_rfl (by decide) (by decide)
  have htwo : sampleLog.leaves.take 2 = [sampleLeaf, 2] := rfl
  have hone : sampleLog.leaves.take 1 = [sampleLeaf] := rfl
  have hpairs : ∀ l ∈ [[sampleLeaf], [sampleLeaf, 2], proof.leafHashes,
      proof.leafHashes.take proof.oldSize],
      ∀ p ∈ nodePairs (hashPair sampleCrypto) (emptyTreeRoot sampleCrypto) l,
        p = (sampleLeaf, 2) := by
    rw [hleaves, hold, htwo]
    intro l hl
    simp only [List.take_succ_cons, List.take_zero, List.mem_cons, List.not_mem_nil, or_false] at hl
    rcases hl with rfl | rfl | rfl | rfl <;> simp [nodePairs_pair]
  have hinj : NoCollision sampleCrypto [[sampleLeaf], [sampleLeaf, 2], proof.leafHashes,
      proof.leafHashes.take proof.oldSize] := by
    rintro p ⟨l, hl, hp⟩ q ⟨m, hm, hq⟩ -
    rw [hpairs l hl p hp, hpairs m hm q hq]
  refine ⟨proof, hprove, hverify, hinj, ?_⟩
  apply hsound proof _ _ hverify
  · rw [hold]
    rfl
  · rw [hnew]
    rfl
  · rw [holdRoot, hone]
    exact loopedRoot_eq _
  · rw [hnewRoot, htwo]
    exact loopedRoot_eq _
  · exact hinj

end ScpCore.EventLog
