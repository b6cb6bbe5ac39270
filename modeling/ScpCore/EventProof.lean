import ScpCore.EventLog

/-! Inclusion proofs of the event log. A verified proof pins the node that the
directions of its path lead to from the root; the index it claims is not read. -/

namespace ScpCore.EventLog

open Merkle

/-- The side of the path's node that its sibling is on. -/
inductive Direction
  | left | right
  deriving DecidableEq

structure ProofStep where
  siblingHash : Hash
  direction : Direction
  deriving DecidableEq

structure InclusionProof where
  leafIndex : ℕ
  leafHash : Hash
  path : List ProofStep
  root : Hash
  deriving DecidableEq

section Verify
variable {κ : Type} (C : LogCrypto κ)

def ProofStep.apply (step : ProofStep) (current : Hash) : Hash :=
  match step.direction with
  | .left => hashPair C step.siblingHash current
  | .right => hashPair C current step.siblingHash

def verifyInclusion (proof : InclusionProof) : Bool :=
  proof.path.foldl (fun current step => step.apply C current) proof.leafHash = proof.root

/-- A node is on the other side of its parent than its sibling. -/
def Direction.side : Direction → Side
  | .left => .right
  | .right => .left

/-- The sides a proof leads along from the root down. -/
def InclusionProof.sides (proof : InclusionProof) : List Side :=
  (proof.path.map (·.direction.side)).reverse

def ProofStep.toStep (step : ProofStep) : Side × Hash := (step.direction.side, step.siblingHash)

/-- The pairs hashed when a proof is verified. -/
def InclusionProof.hashed (proof : InclusionProof) : List (Hash × Hash) :=
  climbPairs (hashPair C) proof.leafHash (proof.path.map ProofStep.toStep)

variable {C}

theorem foldl_apply_eq (path : List ProofStep) (x : Hash) :
    path.foldl (fun current step => step.apply C current) x =
      climb (hashPair C) x (path.map ProofStep.toStep) := by
  induction path generalizing x with
  | nil => rfl
  | cons step path ih =>
    rw [List.foldl_cons, List.map_cons, ih]
    obtain ⟨sibling, direction⟩ := step
    cases direction <;> rfl

/-- A proof that verifies against the root of a log names the node its directions
lead to, and a hash of no interior node is then the leaf there. -/
theorem verified_inclusion_pins_node {log : Log κ} (hrun : LogRun C log) (hne : log.leaves ≠ [])
    {seen : Set (Hash × Hash)} (hinj : Set.InjOn (fun p => hashPair C p.1 p.2) seen)
    (hleaf : ∀ p ∈ seen, hashPair C p.1 p.2 ∉ log.leaves)
    (hlog : ∀ p ∈ nodePairs (hashPair C) (emptyTreeRoot C) log.leaves, p ∈ seen)
    (proof : InclusionProof) (hproof : ∀ p ∈ proof.hashed C, p ∈ seen)
    (hroot : proof.root = log.root C) (hverify : verifyInclusion C proof = true) :
    ∃ i sub, descend proof.sides log.leaves = some (i, sub) ∧
      merkleTreeHash C sub = proof.leafHash ∧
      ((∀ p ∈ seen, hashPair C p.1 p.2 ≠ proof.leafHash) →
        sub = [proof.leafHash] ∧ i < log.leaves.length ∧ log.leaves[i]? = some proof.leafHash) := by
  have hclimb : climb (hashPair C) proof.leafHash (proof.path.map ProofStep.toStep) =
      merkleTreeHash C log.leaves := by
    have hv := of_decide_eq_true hverify
    rw [foldl_apply_eq, hroot, root_eq hrun.tree_eq] at hv
    exact hv
  obtain ⟨i, sub, hdesc, hsub⟩ := climb_sound hinj hne hleaf hlog hproof hclimb
  have hsides : ((proof.path.map ProofStep.toStep).map Prod.fst).reverse = proof.sides := by
    rw [List.map_map]
    rfl
  rw [hsides] at hdesc
  refine ⟨i, sub, hdesc, hsub, ?_⟩
  intro hnode
  obtain ⟨hsne, hle, hall⟩ := descend_spec hne hdesc
  -- A node over two or more leaves would be a pair.
  have hone : sub.length < 2 := by
    by_contra hlen
    have hpairs := nodePairs_split (f := hashPair C) (e := emptyTreeRoot C) (l := sub) (by omega)
    have hmem := hlog _ (descend_nodePairs hdesc (by rw [hpairs]; exact List.mem_cons_self))
    apply hnode _ hmem
    rw [← hsub, treeHash_split (l := sub) (by omega)]
  obtain ⟨a, rfl⟩ : ∃ a, sub = [a] :=
    List.length_eq_one_iff.mp (by have := List.length_pos_iff.mpr hsne; omega)
  rw [treeHash_singleton] at hsub
  subst hsub
  rw [List.length_singleton] at hle
  have hi := hall 0 (by simp)
  exact ⟨rfl, by omega, hi.symm⟩

end Verify

-- A log of two leaves, and proofs of its first leaf.

def samplePair : Log Unit := ((Log.new "ctx").pushLeafRaw sampleCrypto 1).pushLeafRaw sampleCrypto 2

theorem samplePair_run : LogRun sampleCrypto samplePair := .pushLeafRaw 2 (.pushLeafRaw 1 (.new "ctx"))

/-- The path of leaf 0 under the index of the caller's choice. -/
def sampleProof (leafIndex : ℕ) : InclusionProof :=
  ⟨leafIndex, 1, [⟨2, .right⟩], hashPair sampleCrypto 1 2⟩

theorem samplePair_pairs :
    nodePairs (hashPair sampleCrypto) (emptyTreeRoot sampleCrypto) samplePair.leaves = [(1, 2)] :=
  nodePairs_pair 1 2

theorem samplePair_noLeaf : ∀ p ∈ ({(1, 2)} : Set (Hash × Hash)),
    hashPair sampleCrypto p.1 p.2 ∉ samplePair.leaves := by
  intro p hp
  rw [Set.mem_singleton_iff.mp hp]
  decide +kernel

/-- The proof of leaf 0 verifies under the index of leaf 1 and under an index past
the end, though no two pairs hashed collide and no pair hashes to a leaf. -/
theorem inclusion_index_unbound :
    LogRun sampleCrypto samplePair ∧
    Set.InjOn (fun p => hashPair sampleCrypto p.1 p.2) ({(1, 2)} : Set (Hash × Hash)) ∧
    (∀ p ∈ ({(1, 2)} : Set (Hash × Hash)), hashPair sampleCrypto p.1 p.2 ∉ samplePair.leaves) ∧
    (∀ p ∈ nodePairs (hashPair sampleCrypto) (emptyTreeRoot sampleCrypto) samplePair.leaves,
      p ∈ ({(1, 2)} : Set (Hash × Hash))) ∧
    (∀ index, ∀ p ∈ (sampleProof index).hashed sampleCrypto,
      p ∈ ({(1, 2)} : Set (Hash × Hash))) ∧
    (sampleProof 1).root = samplePair.root sampleCrypto ∧
    verifyInclusion sampleCrypto (sampleProof 1) = true ∧
    samplePair.leaves[(sampleProof 1).leafIndex]? ≠ some (sampleProof 1).leafHash ∧
    verifyInclusion sampleCrypto (sampleProof 7) = true ∧
    ¬ (sampleProof 7).leafIndex < samplePair.leaves.length := by
  refine ⟨samplePair_run, Set.injOn_singleton _ _, samplePair_noLeaf, ?_, ?_, ?_, ?_, ?_, ?_, ?_⟩
  · rw [samplePair_pairs]
    simp
  · intro index p hp
    simpa [InclusionProof.hashed, sampleProof, ProofStep.toStep, Direction.side, climbPairs] using hp
  all_goals decide +kernel

theorem verified_inclusion_pins_node_sample :
    ∃ i sub, descend (sampleProof 0).sides samplePair.leaves = some (i, sub) ∧
      merkleTreeHash sampleCrypto sub = (sampleProof 0).leafHash ∧
      samplePair.leaves[i]? = some (sampleProof 0).leafHash := by
  obtain ⟨i, sub, hdesc, hhash, hpin⟩ := verified_inclusion_pins_node samplePair_run (by decide)
    (Set.injOn_singleton _ ((1, 2) : Hash × Hash)) samplePair_noLeaf
    (by rw [samplePair_pairs]; simp) (sampleProof 0)
    (by
      intro p hp
      simpa [InclusionProof.hashed, sampleProof, ProofStep.toStep, Direction.side, climbPairs]
        using hp)
    (by decide +kernel) (by decide +kernel)
  refine ⟨i, sub, hdesc, hhash, (hpin ?_).2.2⟩
  intro p hp
  rw [Set.mem_singleton_iff.mp hp]
  decide +kernel

end ScpCore.EventLog
