import ScpCore.MerkleForest
import ScpCore.EventLog
import ScpCore.StreamEscrow

/-! The chunk manifest of a stream. The auditor pairs the leaf hashes of the whole sequence level
by level; the pump keeps only a frontier of perfect subtrees. Both give the tree hash. -/

namespace ScpCore.Outlets

open Merkle EventLog

/-- A chunk with its payload's content of type `δ`, as it is hashed and signed. -/
structure StreamChunk (δ : Type) extends OutletStreamChunk where
  requestId : Bytes
  body : δ
  sig : Bytes
  deriving DecidableEq

/-- What the stream takes from other crates: SHA-256, and the canonical JSON of a chunk and of a
payload, which a number outside I-JSON makes fail. -/
structure ChunkCrypto (δ : Type) where
  sha256 : Bytes → Hash
  jcs : StreamChunk δ → Except String Bytes
  jcsPayload : ChunkPayload → δ → Except String Bytes

/-- The bytes of `SCP-OUTLET-CHUNK-V1:`. -/
def chunkSeparator : Bytes :=
  [83, 67, 80, 45, 79, 85, 84, 76, 69, 84, 45, 67, 72, 85, 78, 75, 45, 86, 49, 58]

def chunkManifestLeafTag : UInt8 := 0x00

def chunkManifestInteriorTag : UInt8 := 0x01

section Manifest
variable {δ : Type} (C : ChunkCrypto δ)

def computeChunkLeafHash (chunk : StreamChunk δ) : Except String Hash := do
  let chunkJcs ← C.jcs chunk
  pure (C.sha256 (chunkSeparator ++ [chunkManifestLeafTag] ++ chunkJcs))

def computeChunkInteriorHash (leftHash rightHash : Hash) : Hash :=
  C.sha256 (chunkSeparator ++ [chunkManifestInteriorTag] ++ hashBytes leftHash ++
    hashBytes rightHash)

/-- Each round halves the level, so as many rounds as leaves are enough. -/
def foldChunkLeafHashes (leaves : List Hash) : Hash :=
  foldLevels (computeChunkInteriorHash C) 0 leaves.length leaves

def computeChunkManifestRoot (chunks : List (StreamChunk δ)) : Except String Hash := do
  let leaves ← mapEach (computeChunkLeafHash C) chunks
  pure (foldChunkLeafHashes C leaves)

/-- The perfect subtrees, top first, and the counters. -/
structure MerkleFrontier where
  stack : List (ℕ × Hash)
  leafCount : ℕ
  billedCount : ℕ
  ceiling : ℕ
  deriving DecidableEq

namespace MerkleFrontier

def withCeiling (cancelAckCeiling : ℕ) : MerkleFrontier := ⟨[], 0, 0, cancelAckCeiling⟩

def new : MerkleFrontier := withCeiling u64Max

def push (frontier : MerkleFrontier) (chunk : StreamChunk δ) : Except String MerkleFrontier := do
  let leaf ← computeChunkLeafHash C chunk
  pure { frontier with
    stack := carry (computeChunkInteriorHash C) (0, leaf) frontier.stack
    leafCount := saturatingAdd frontier.leafCount 1
    billedCount := if chunk.sequence ≤ frontier.ceiling && chunk.payload = .data then
      saturatingAdd frontier.billedCount 1 else frontier.billedCount }

/-- The pushes of a whole sequence. -/
def pushAll : MerkleFrontier → List (StreamChunk δ) → Except String MerkleFrontier
  | frontier, [] => .ok frontier
  | frontier, chunk :: chunks => do
    let next ← frontier.push C chunk
    pushAll next chunks

def root (frontier : MerkleFrontier) : Hash :=
  foldForest (computeChunkInteriorHash C) 0 frontier.stack

end MerkleFrontier

/-- A chunk that the reference count counts. -/
def countsUpTo (cancelAckSeq : ℕ) (chunk : StreamChunk δ) : Bool :=
  chunk.sequence ≤ cancelAckSeq && chunk.payload = .data

def computeChunksBilledRef (chunks : List (StreamChunk δ)) (cancelAckSeq : ℕ) : ℕ :=
  min (chunks.filter (countsUpTo cancelAckSeq)).length u32Max

/-- The frontier after the chunks `pushed`, whose leaf hashes are `leaves`. -/
structure FrontierOf (pushed : List (StreamChunk δ)) (leaves : List Hash)
    (frontier : MerkleFrontier) : Prop where
  hashes : List.Forall₂ (fun chunk leaf => computeChunkLeafHash C chunk = .ok leaf) pushed leaves
  forest : Forest (computeChunkInteriorHash C) 0 frontier.stack leaves
  leafCount : frontier.leafCount = min pushed.length u64Max
  billedCount : frontier.billedCount =
    min (pushed.filter (countsUpTo frontier.ceiling)).length u64Max

variable {C}

theorem FrontierOf.withCeiling (cancelAckCeiling : ℕ) :
    FrontierOf C [] [] (.withCeiling cancelAckCeiling) :=
  ⟨.nil, .nil, rfl, rfl⟩

theorem FrontierOf.push {pushed : List (StreamChunk δ)} {leaves : List Hash}
    {frontier : MerkleFrontier} (h : FrontierOf C pushed leaves frontier) {chunk : StreamChunk δ}
    {leaf : Hash} (hleaf : computeChunkLeafHash C chunk = .ok leaf) :
    ∃ next, frontier.push C chunk = .ok next ∧ next.ceiling = frontier.ceiling ∧
      FrontierOf C (pushed ++ [chunk]) (leaves ++ [leaf]) next := by
  have hpush : frontier.push C chunk = .ok { frontier with
      stack := carry (computeChunkInteriorHash C) (0, leaf) frontier.stack
      leafCount := saturatingAdd frontier.leafCount 1
      billedCount := if countsUpTo frontier.ceiling chunk then
        saturatingAdd frontier.billedCount 1 else frontier.billedCount } := by
    rw [MerkleFrontier.push, hleaf]
    rfl
  refine ⟨_, hpush, rfl, List.rel_append h.hashes (.cons hleaf .nil), h.forest.push leaf, ?_, ?_⟩
  · dsimp only
    rw [h.leafCount, saturatingAdd_min, List.length_append, List.length_singleton]
  · have hcount := h.billedCount
    dsimp only
    rw [List.filter_append, List.length_append]
    by_cases hbill : countsUpTo frontier.ceiling chunk = true
    · rw [List.filter_cons_of_pos hbill, if_pos hbill, hcount, saturatingAdd_min]
      rfl
    · rw [List.filter_cons_of_neg hbill, if_neg hbill, hcount]
      rfl

theorem FrontierOf.pushAll {pushed chunks : List (StreamChunk δ)} {leaves more : List Hash}
    {frontier : MerkleFrontier} (h : FrontierOf C pushed leaves frontier)
    (hmore : List.Forall₂ (fun chunk leaf => computeChunkLeafHash C chunk = .ok leaf) chunks more) :
    ∃ last, frontier.pushAll C chunks = .ok last ∧ last.ceiling = frontier.ceiling ∧
      FrontierOf C (pushed ++ chunks) (leaves ++ more) last := by
  induction hmore generalizing pushed leaves frontier with
  | nil => exact ⟨frontier, rfl, rfl, by simpa using h⟩
  | @cons chunk leaf chunks more hleaf _ ih =>
    obtain ⟨next, hpush, hceiling, hnext⟩ := h.push hleaf
    obtain ⟨last, hlast, hceiling', hof⟩ := ih hnext
    refine ⟨last, ?_, hceiling'.trans hceiling, ?_⟩
    · rw [MerkleFrontier.pushAll, hpush]
      exact hlast
    · rw [List.append_assoc, List.append_assoc] at hof
      exact hof

theorem FrontierOf.root_eq {pushed : List (StreamChunk δ)} {leaves : List Hash}
    {frontier : MerkleFrontier} (h : FrontierOf C pushed leaves frontier) :
    frontier.root C = treeHash (computeChunkInteriorHash C) 0 leaves :=
  h.forest.foldForest_eq

theorem foldChunkLeafHashes_eq (leaves : List Hash) :
    foldChunkLeafHashes C leaves = treeHash (computeChunkInteriorHash C) 0 leaves :=
  foldLevels_eq (by omega)

/-- The auditor's root over the chunks pushed. -/
theorem FrontierOf.computeChunkManifestRoot_eq {pushed : List (StreamChunk δ)} {leaves : List Hash}
    {frontier : MerkleFrontier} (h : FrontierOf C pushed leaves frontier) :
    computeChunkManifestRoot C pushed = .ok (frontier.root C) := by
  have hleaves := (mapEach_ok_iff _ _ _).mpr h.hashes
  rw [computeChunkManifestRoot, hleaves, h.root_eq, ← foldChunkLeafHashes_eq]
  rfl

/-- Below the bounds of the words, the counters are exact. -/
theorem FrontierOf.billedCount_eq {pushed : List (StreamChunk δ)} {leaves : List Hash}
    {frontier : MerkleFrontier} (h : FrontierOf C pushed leaves frontier)
    (hlen : pushed.length < 2^32) :
    frontier.billedCount = computeChunksBilledRef pushed frontier.ceiling := by
  have hle := List.length_filter_le (countsUpTo frontier.ceiling) pushed
  have hcount := h.billedCount
  unfold computeChunksBilledRef
  have h32 : u32Max = 2^32-1 := rfl
  have h64 : u64Max = 2^64-1 := rfl
  omega

end Manifest

/-- Pushing chunks one by one gives the batch root, which is the tree hash of the leaf hashes; the
stack follows the binary expansion of their number, and the counters count them. -/
theorem frontier_is_manifest {δ : Type} {C : ChunkCrypto δ} {chunks : List (StreamChunk δ)}
    {leaves : List Hash} (h : mapEach (computeChunkLeafHash C) chunks = .ok leaves) :
    (∃ frontier, MerkleFrontier.new.pushAll C chunks = .ok frontier ∧
      computeChunkManifestRoot C chunks = .ok (frontier.root C) ∧
      frontier.root C = treeHash (computeChunkInteriorHash C) 0 leaves ∧
      frontier.stack.Pairwise (fun upper lower => upper.1 < lower.1) ∧
      (frontier.stack.map (fun tree => 2^tree.1)).sum = chunks.length ∧
      (chunks.length ≤ u64Max → frontier.leafCount = chunks.length)) ∧
    ∀ s, chunks.length < 2^32 → ∃ frontier,
      (MerkleFrontier.withCeiling s).pushAll C chunks = .ok frontier ∧
        frontier.billedCount = computeChunksBilledRef chunks s := by
  have hhashes := (mapEach_ok_iff _ _ _).mp h
  constructor
  · obtain ⟨frontier, hpush, -, hof⟩ := (FrontierOf.withCeiling u64Max).pushAll hhashes
    refine ⟨frontier, hpush, hof.computeChunkManifestRoot_eq, hof.root_eq, hof.forest.levels, ?_,
      ?_⟩
    · rw [hof.forest.sum_levels]
      exact hhashes.length_eq.symm
    · intro hlen
      rw [hof.leafCount]
      exact min_eq_left hlen
  · intro s hlen
    obtain ⟨frontier, hpush, hceiling, hof⟩ := (FrontierOf.withCeiling s).pushAll hhashes
    refine ⟨frontier, hpush, ?_⟩
    have hcount := hof.billedCount_eq hlen
    rw [hceiling] at hcount
    exact hcount

-- Three chunks, two of them data, under a short hash.

def sampleChunkCrypto : ChunkCrypto Unit where
  sha256 b := BitVec.ofNat 256 (b.foldl (fun h u => (257*h+u.toNat+1)%1000003) 7)
  jcs chunk := .ok (beBytes 8 chunk.sequence ++ chunk.sig)
  jcsPayload _ _ := .ok []

def sampleChunks : List (StreamChunk Unit) :=
  [⟨⟨0, .data⟩, [], (), [1]⟩, ⟨⟨1, .data⟩, [], (), [2]⟩, ⟨⟨2, .end_⟩, [], (), [3]⟩]

def sampleLeaves : List Hash :=
  sampleChunks.map (fun chunk => sampleChunkCrypto.sha256
    (chunkSeparator ++ [chunkManifestLeafTag] ++ (beBytes 8 chunk.sequence ++ chunk.sig)))

theorem frontier_is_manifest_sample :
    (∃ frontier, MerkleFrontier.new.pushAll sampleChunkCrypto sampleChunks = .ok frontier ∧
      frontier.root sampleChunkCrypto =
        treeHash (computeChunkInteriorHash sampleChunkCrypto) 0 sampleLeaves ∧
      frontier.leafCount = 3) ∧
    ∃ frontier, (MerkleFrontier.withCeiling 0).pushAll sampleChunkCrypto sampleChunks =
      .ok frontier ∧ frontier.billedCount = 1 := by
  have hleaves : mapEach (computeChunkLeafHash sampleChunkCrypto) sampleChunks = .ok sampleLeaves :=
    rfl
  obtain ⟨⟨frontier, hpush, -, hroot, -, -, hcount⟩, hbilled⟩ := frontier_is_manifest hleaves
  obtain ⟨billed, hpush', hcount'⟩ := hbilled 0 (by decide)
  exact ⟨⟨frontier, hpush, hroot, hcount (by decide)⟩, billed, hpush', hcount'⟩

end ScpCore.Outlets
