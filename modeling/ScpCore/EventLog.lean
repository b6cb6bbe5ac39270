import ScpCore.ExactRead
import ScpCore.MerkleTree

/-! The append-only event log. Every append checks the event against the log and
updates the interior layers along one path; the layers it leaves are those a
full rebuild makes, and the root is the tree hash of the leaves. -/

namespace ScpCore.EventLog

open Merkle

abbrev Hash := BitVec 256

/-- An event of type `κ`, as the log stores and hashes it. -/
structure Event (κ : Type) where
  eventType : κ
  actorDid : Bytes
  timestamp : ℕ
  sequence : ℕ
  payload : Bytes
  prevHash : Hash
  signature : Bytes
  deriving DecidableEq

inductive EventLogError
  | prevHashMismatch (sequence : ℕ)
  | invalidSignature (sequence : ℕ) (reason : String)
  | serializationFailed (reason : String)
  | sequenceMismatch (expected actual : ℕ)
  | leafIndexOutOfBounds (index count : ℕ)
  | emptyLog
  | absenceProofForPresentEvent
  deriving DecidableEq

/-- What the log takes from other crates: SHA-256, the event serializer, the
registered event-type tags, the key of a DID and the signature check. -/
structure LogCrypto (κ : Type) where
  sha256 : Bytes → Hash
  serialize : Event κ → Except String Bytes
  eventTypeTag : κ → BitVec 16
  extractPublicKeyFromDid : Bytes → Except String Bytes
  verifyEd25519Signature : Bytes → Bytes → Bytes → Except String Unit

def genesisPrevHash : Hash := 0

def hashBytes (h : Hash) : Bytes := beBytes 32 h.toNat

section Hashes
variable {κ : Type} (C : LogCrypto κ)

def emptyTreeRoot : Hash := C.sha256 []

def hashPair (left right : Hash) : Hash := C.sha256 (0x01 :: (hashBytes left ++ hashBytes right))

def leafHash (event : Event κ) : Except EventLogError Hash := do
  let serialized ← (C.serialize event).mapError .serializationFailed
  pure (C.sha256 (0x00 :: serialized))

def lengthPrefix (bytes : Bytes) : Bytes := beBytes 4 bytes.length ++ bytes

/-- The bytes of `SCP-EVENT-V1:`. -/
def eventSeparator : Bytes := [83, 67, 80, 45, 69, 86, 69, 78, 84, 45, 86, 49, 58]

def computeEventCanonicalHash (event : Event κ) : Hash :=
  C.sha256 (eventSeparator ++ beBytes 2 (C.eventTypeTag event.eventType).toNat ++
    lengthPrefix event.actorDid ++ beBytes 8 event.timestamp ++ beBytes 8 event.sequence ++
    lengthPrefix event.payload ++ hashBytes event.prevHash)

def verifyEventSignature (event : Event κ) : Except EventLogError Unit := do
  let key ← (C.extractPublicKeyFromDid event.actorDid).mapError (.invalidSignature event.sequence)
  (C.verifyEd25519Signature key (hashBytes (computeEventCanonicalHash C event))
    event.signature).mapError (.invalidSignature event.sequence)

end Hashes

section Layers
variable {κ : Type} (C : LogCrypto κ)

/-- The loop of `recomputeTree`: one layer a round, to the one of a single node. -/
def recomputeLoop : ℕ → List Hash → List (List Hash)
  | 0, _ => []
  | fuel+1, current =>
    let parents := pairUp (hashPair C) current
    if parents.length = 1 then [parents] else parents :: recomputeLoop fuel parents

def recomputeTree (leaves : List Hash) : List (List Hash) :=
  if leaves.length ≤ 1 then [] else recomputeLoop C leaves.length leaves

/-- `Vec::resize`. -/
def resize (layer : List Hash) (len : ℕ) : List Hash :=
  layer.take len ++ List.replicate (len-layer.length) 0

/-- The node above the pair that node `index` of a layer belongs to. -/
def parentOf (layer : List Hash) (index : ℕ) : Hash :=
  let left := index/2*2
  if left+1 < layer.length then hashPair C (layer.getD left 0) (layer.getD (left+1) 0)
  else layer.getD left 0

/-- The walk up from node `index` of `current`, with the layers above it: the
layer above is sized, its one affected node recomputed, and a layer of a single
node ends the tree. -/
def updatePath : ℕ → List Hash → ℕ → List (List Hash) → List (List Hash)
  | 0, _, _, _ => []
  | fuel+1, current, index, above =>
    if current.length ≤ 1 then []
    else
      let next := (resize (above.headD []) ((current.length+1)/2)).set (index/2)
        (parentOf C current index)
      next :: updatePath fuel next (index/2) above.tail

def incrementalUpdate (leaves : List Hash) (tree : List (List Hash)) : List (List Hash) :=
  if leaves.length ≤ 1 then []
  else if leaves.length = 2 then [[hashPair C (leaves.getD 0 0) (leaves.getD 1 0)]]
  else updatePath C leaves.length leaves (leaves.length-1) tree

end Layers

structure Log (κ : Type) where
  leaves : List Hash
  tree : List (List Hash)
  contextId : String
  sortedLeaves : Finset (Hash × ℕ)
  events : List (Event κ)

namespace Log
variable {κ : Type} (C : LogCrypto κ) (log : Log κ)

def new (contextId : String) : Log κ := ⟨[], [], contextId, ∅, []⟩

def eventCount : ℕ := log.leaves.length

def root : Hash :=
  match log.leaves with
  | [] => emptyTreeRoot C
  | first :: _ =>
    match log.tree.getLast? with
    | none => first
    | some top => top.headD 0

def expectedPrevHash : Hash := log.leaves.getLast?.getD genesisPrevHash

/-- The checks of a sequence number and of the hash chain. -/
def checkNext (event : Event κ) : Except EventLogError Unit := do
  require (event.sequence = log.eventCount) (.sequenceMismatch log.eventCount event.sequence)
  require (event.prevHash = log.expectedPrevHash) (.prevHashMismatch event.sequence)

/-- The log with one more leaf and its event. -/
def pushed (leaf : Hash) (event : Event κ) : Log κ :=
  { log with
    leaves := log.leaves ++ [leaf]
    tree := incrementalUpdate C (log.leaves ++ [leaf]) log.tree
    sortedLeaves := insert (leaf, log.leaves.length) log.sortedLeaves
    events := log.events ++ [event] }

/-- `append`: every check comes before the log is written. -/
def append (event : Event κ) : Except EventLogError (ℕ × Log κ) := do
  log.checkNext event
  verifyEventSignature C event
  let leaf ← leafHash C event
  pure (log.leaves.length, log.pushed C leaf event)

def appendUnsignedEvent (event : Event κ) : Except EventLogError (ℕ × Log κ) := do
  log.checkNext event
  let leaf ← leafHash C event
  pure (log.leaves.length, log.pushed C leaf event)

/-- `push_leaf_raw`: no check, and the whole tree rebuilt. -/
def pushLeafRaw (leaf : Hash) : Log κ :=
  { log with
    leaves := log.leaves ++ [leaf]
    tree := recomputeTree C (log.leaves ++ [leaf])
    sortedLeaves := insert (leaf, log.leaves.length) log.sortedLeaves }

end Log

section Roots
variable {κ : Type} (C : LogCrypto κ)

/-- The loop of a root computed without its layers. -/
def rootLoop : ℕ → List Hash → Hash
  | 0, current => current.headD 0
  | fuel+1, current =>
    if 1 < current.length then rootLoop fuel (pairUp (hashPair C) current) else current.headD 0

/-- The body the proof and the tiered-storage modules share. -/
def loopedRoot (leaves : List Hash) : Hash :=
  match leaves with
  | [] => emptyTreeRoot C
  | [leaf] => leaf
  | leaves => rootLoop C leaves.length leaves

/-- `compute_root_from_leaves` of the proof module. -/
def Proof.computeRootFromLeaves (leaves : List Hash) : Hash := loopedRoot C leaves

/-- `compute_root_from_leaves` of tiered storage. -/
def Tiered.computeRootFromLeaves (leaves : List Hash) : Hash := loopedRoot C leaves

/-- `compute_root_from_leaves` of the checkpoint module, from the last layer;
`none` is its unreachable branch. -/
def Checkpoint.computeRootFromLeaves (leaves : List Hash) : Option Hash :=
  match leaves with
  | [] => some (emptyTreeRoot C)
  | [leaf] => some leaf
  | leaves =>
    match (recomputeTree C leaves).getLast? with
    | some [top] => some top
    | some _ | none => none

/-- The tree hash of a leaf list. -/
def merkleTreeHash (leaves : List Hash) : Hash := treeHash (hashPair C) (emptyTreeRoot C) leaves

end Roots

section Update
variable {κ : Type} {C : LogCrypto κ}

theorem recomputeLoop_eq {fuel : ℕ} {current : List Hash} (hfuel : current.length ≤ fuel)
    (hlen : 2 ≤ current.length) : recomputeLoop C fuel current = layers (hashPair C) current := by
  induction fuel generalizing current with
  | zero => omega
  | succ fuel ih =>
    have hparents := length_pairUp (f := hashPair C) current
    rw [layers_cons hlen, recomputeLoop]
    by_cases htop : (pairUp (hashPair C) current).length = 1
    · rw [if_pos htop, layers_small (by omega)]
    · rw [if_neg htop, ih (by omega) (by omega)]

theorem recomputeTree_eq (leaves : List Hash) :
    recomputeTree C leaves = layers (hashPair C) leaves := by
  unfold recomputeTree
  by_cases h : leaves.length ≤ 1
  · rw [if_pos h, layers_small h]
  · rw [if_neg h, recomputeLoop_eq le_rfl (by omega)]

/-- `after` is `before` with its last node changed, or with one more node. -/
structure LastChanged (before after : List Hash) : Prop where
  length : after.length = before.length ∨ after.length = before.length+1
  agree : ∀ i, i+1 < after.length → after[i]? = before[i]?

theorem pairUp_getElem? (f : Hash → Hash → Hash) (layer : List Hash) (i : ℕ) :
    (pairUp f layer)[i]? = if 2*i+1 < layer.length then
      some (f (layer.getD (2*i) 0) (layer.getD (2*i+1) 0)) else layer[2*i]? := by
  fun_induction pairUp f layer generalizing i with
  | case1 a b rest ih =>
    cases i with
    | zero => simp
    | succ i =>
      have hi := ih i
      simp only [List.getElem?_cons_succ, List.length_cons, Nat.mul_add, Nat.mul_one, hi]
      by_cases hlt : 2*i+1 < rest.length
      · rw [if_pos hlt, if_pos (by omega)]
        simp
      · rw [if_neg hlt, if_neg (by omega)]
  | case2 a =>
    cases i with
    | zero => simp
    | succ i => simp
  | case3 => simp

theorem parentOf_last {l : List Hash} (h : 2 ≤ l.length) :
    (pairUp (hashPair C) l)[(l.length-1)/2]? = some (parentOf C l (l.length-1)) := by
  rw [pairUp_getElem?, parentOf, Nat.mul_comm]
  by_cases hlt : (l.length-1)/2*2+1 < l.length
  · rw [if_pos hlt, if_pos hlt]
  · rw [if_neg hlt, if_neg hlt, List.getElem?_eq_getElem (by omega), List.getD_eq_getElem?_getD,
      List.getElem?_eq_getElem (by omega), Option.getD_some]

/-- A change of the last node changes only the last node one layer up. -/
theorem LastChanged.pairUp {before after : List Hash} (h : LastChanged before after)
    (f : Hash → Hash → Hash) : LastChanged (pairUp f before) (pairUp f after) := by
  have hlen := h.length
  have hb := length_pairUp (f := f) before
  have ha := length_pairUp (f := f) after
  refine ⟨by omega, ?_⟩
  intro i hi
  have h₀ := h.agree (2*i) (by omega)
  have h₁ := h.agree (2*i+1) (by omega)
  rw [pairUp_getElem?, pairUp_getElem?, if_pos (by omega), if_pos (by omega)]
  simp only [List.getD_eq_getElem?_getD, h₀, h₁]

/-- Sizing the old layer and setting the last node makes the new one. -/
theorem resize_set_eq {before after : List Hash} (h : LastChanged before after) {v : Hash}
    (hv : after[after.length-1]? = some v) :
    (resize before after.length).set (after.length-1) v = after := by
  have hlen := h.length
  have hpos : after.length-1 < after.length := (List.getElem?_eq_some_iff.mp hv).1
  apply List.ext_getElem?
  intro i
  rw [List.getElem?_set]
  have hsize : (resize before after.length).length = after.length := by
    unfold resize
    rw [List.length_append, List.length_take, List.length_replicate]
    omega
  by_cases hi : after.length-1 = i
  · rw [if_pos hi, if_pos (by omega), ← hi, hv]
  · rw [if_neg hi]
    by_cases hlt : i < after.length
    · rw [h.agree i (by omega), resize, List.getElem?_append_left
        (by rw [List.length_take]; omega), List.getElem?_take, if_pos hlt]
    · rw [List.getElem?_eq_none (by omega), List.getElem?_eq_none (by omega)]

theorem updatePath_eq {fuel : ℕ} {before after : List Hash} (h : LastChanged before after)
    (hfuel : after.length ≤ fuel) :
    updatePath C fuel after (after.length-1) (layers (hashPair C) before) =
      layers (hashPair C) after := by
  induction fuel generalizing before after with
  | zero =>
    have hafter : after.length ≤ 1 := by omega
    rw [layers_small hafter]
    rfl
  | succ fuel ih =>
    rw [updatePath]
    by_cases hsmall : after.length ≤ 1
    · rw [if_pos hsmall, layers_small hsmall]
    · have hup := h.pairUp (hashPair C)
      have hlen := h.length
      have ha := length_pairUp (f := hashPair C) after
      -- The old layer above, which is there unless the old layer is a single node.
      have hhead : LastChanged ((layers (hashPair C) before).headD []) (pairUp (hashPair C) after) := by
        by_cases hb : 2 ≤ before.length
        · rw [layers_cons hb]
          exact hup
        · rw [layers_small (by omega)]
          refine ⟨?_, ?_⟩
          · simp only [List.headD_nil, List.length_nil]
            omega
          · intro i hi
            omega
      have hlast := parentOf_last (C := C) (l := after) (by omega)
      have hidx : (pairUp (hashPair C) after).length-1 = (after.length-1)/2 := by omega
      have hnext : (resize ((layers (hashPair C) before).headD []) ((after.length+1)/2)).set
          ((after.length-1)/2) (parentOf C after (after.length-1)) = pairUp (hashPair C) after := by
        rw [← ha, ← hidx]
        apply resize_set_eq hhead
        rw [hidx, hlast]
      have hcons := layers_cons (f := hashPair C) (l := after) (by omega)
      rw [if_neg hsmall, hnext, hcons, layers_tail, ← hidx]
      dsimp only
      rw [ih hup (by omega)]

/-- An update after one more leaf leaves the layers of a full rebuild. -/
theorem incrementalUpdate_eq (leaves : List Hash) (leaf : Hash) :
    incrementalUpdate C (leaves ++ [leaf]) (layers (hashPair C) leaves) =
      layers (hashPair C) (leaves ++ [leaf]) := by
  have hlast : LastChanged leaves (leaves ++ [leaf]) := by
    refine ⟨by simp, ?_⟩
    intro i hi
    rw [List.length_append, List.length_singleton] at hi
    rw [List.getElem?_append_left (by omega)]
  unfold incrementalUpdate
  by_cases h₁ : (leaves ++ [leaf]).length ≤ 1
  · rw [if_pos h₁, layers_small h₁]
  · rw [if_neg h₁]
    by_cases h₂ : (leaves ++ [leaf]).length = 2
    · rw [if_pos h₂]
      match hl : leaves ++ [leaf] with
      | [a, b] => rw [layers_cons (by simp)]; simp [pairUp, layers_small]
      | [] | [_] | _ :: _ :: _ :: _ => simp [hl] at h₂
    · rw [if_neg h₂, updatePath_eq hlast le_rfl]

theorem rootLoop_eq {fuel : ℕ} {current : List Hash} (hfuel : current.length ≤ fuel)
    (hne : current ≠ []) : rootLoop C fuel current = merkleTreeHash C current := by
  have hsmall : ∀ {l : List Hash}, l ≠ [] → l.length ≤ 1 → l.headD 0 = merkleTreeHash C l := by
    intro l hl hlen
    match l with
    | [a] => exact (treeHash_singleton a).symm
    | [] => exact absurd rfl hl
    | _ :: _ :: _ => simp at hlen
  have hpos := List.length_pos_iff.mpr hne
  induction fuel generalizing current with
  | zero => omega
  | succ fuel ih =>
    have hup := length_pairUp (f := hashPair C) current
    rw [rootLoop]
    by_cases h : 1 < current.length
    · have hne' : pairUp (hashPair C) current ≠ [] := List.ne_nil_of_length_pos (by omega)
      rw [if_pos h, ih (by omega) hne' (by omega)]
      exact treeHash_pairUp current
    · rw [if_neg h, hsmall hne (by omega)]

theorem loopedRoot_eq (leaves : List Hash) : loopedRoot C leaves = merkleTreeHash C leaves := by
  match leaves with
  | [] => exact treeHash_nil.symm
  | [a] => exact (treeHash_singleton a).symm
  | a :: b :: rest => exact rootLoop_eq le_rfl (by simp)

theorem Checkpoint.computeRootFromLeaves_eq (leaves : List Hash) :
    Checkpoint.computeRootFromLeaves C leaves = some (merkleTreeHash C leaves) := by
  match leaves with
  | [] => exact congrArg some treeHash_nil.symm
  | [a] => exact congrArg some (treeHash_singleton a).symm
  | a :: b :: rest =>
    have hlast := layers_getLast (f := hashPair C) (e := emptyTreeRoot C) (l := a :: b :: rest)
      (by simp)
    simp only [Checkpoint.computeRootFromLeaves, recomputeTree_eq, hlast]
    rfl

end Update

section Runs
variable {κ : Type} {C : LogCrypto κ}

/-- The logs that successful operations on a new log lead to. -/
inductive LogRun (C : LogCrypto κ) : Log κ → Prop
  | new (contextId : String) : LogRun C (.new contextId)
  | append {log log' : Log κ} {event : Event κ} {index : ℕ} (h : LogRun C log)
      (ok : log.append C event = .ok (index, log')) : LogRun C log'
  | appendUnsignedEvent {log log' : Log κ} {event : Event κ} {index : ℕ} (h : LogRun C log)
      (ok : log.appendUnsignedEvent C event = .ok (index, log')) : LogRun C log'
  | pushLeafRaw {log : Log κ} (leaf : Hash) (h : LogRun C log) : LogRun C (log.pushLeafRaw C leaf)

theorem append_ok {log log' : Log κ} {event : Event κ} {index : ℕ} :
    log.append C event = .ok (index, log') ↔
      event.sequence = log.eventCount ∧ event.prevHash = log.expectedPrevHash ∧
        verifyEventSignature C event = .ok () ∧
        ∃ leaf, leafHash C event = .ok leaf ∧ index = log.leaves.length ∧
          log' = log.pushed C leaf event := by
  simp only [Log.append, Log.checkNext, bind_ok_iff, require_ok_iff, decide_eq_true_eq,
    exists_unit_iff, pure_ok_iff, Prod.mk.injEq, and_assoc]
  simp only [eq_comm]

theorem appendUnsignedEvent_ok {log log' : Log κ} {event : Event κ} {index : ℕ} :
    log.appendUnsignedEvent C event = .ok (index, log') ↔
      event.sequence = log.eventCount ∧ event.prevHash = log.expectedPrevHash ∧
        ∃ leaf, leafHash C event = .ok leaf ∧ index = log.leaves.length ∧
          log' = log.pushed C leaf event := by
  simp only [Log.appendUnsignedEvent, Log.checkNext, bind_ok_iff, require_ok_iff,
    decide_eq_true_eq, exists_unit_iff, pure_ok_iff, Prod.mk.injEq, and_assoc]
  simp only [eq_comm]

/-- The layers of every log are those of its leaves. -/
theorem LogRun.tree_eq {log : Log κ} (h : LogRun C log) :
    log.tree = layers (hashPair C) log.leaves := by
  have hpushed : ∀ {log : Log κ} (leaf : Hash) (event : Event κ),
      log.tree = layers (hashPair C) log.leaves →
      (log.pushed C leaf event).tree = layers (hashPair C) (log.pushed C leaf event).leaves := by
    intro log leaf event ih
    rw [Log.pushed, ih, incrementalUpdate_eq]
  induction h with
  | new contextId => exact (layers_small (by simp [Log.new])).symm
  | append _ ok ih =>
    obtain ⟨_, _, _, leaf, _, _, rfl⟩ := append_ok.mp ok
    exact hpushed leaf _ ih
  | appendUnsignedEvent _ ok ih =>
    obtain ⟨_, _, leaf, _, _, rfl⟩ := appendUnsignedEvent_ok.mp ok
    exact hpushed leaf _ ih
  | pushLeafRaw leaf _ _ => exact recomputeTree_eq _

theorem root_eq {log : Log κ} (h : log.tree = layers (hashPair C) log.leaves) :
    log.root C = merkleTreeHash C log.leaves := by
  unfold Log.root
  rw [h]
  match log.leaves with
  | [] => exact treeHash_nil.symm
  | [a] =>
    rw [layers_small (by simp)]
    exact (treeHash_singleton a).symm
  | a :: b :: rest =>
    have hlast := layers_getLast (f := hashPair C) (e := emptyTreeRoot C) (l := a :: b :: rest)
      (by simp)
    simp only [hlast]
    rfl

/-- The maintained layers are a full rebuild's, and the root and the three
separate root functions give the tree hash of the leaves. -/
theorem log_tree_is_rfc6962 {log : Log κ} (h : LogRun C log) :
    log.tree = recomputeTree C log.leaves ∧
    log.root C = merkleTreeHash C log.leaves ∧
    Proof.computeRootFromLeaves C log.leaves = merkleTreeHash C log.leaves ∧
    Checkpoint.computeRootFromLeaves C log.leaves = some (merkleTreeHash C log.leaves) ∧
    Tiered.computeRootFromLeaves C log.leaves = merkleTreeHash C log.leaves := by
  refine ⟨?_, root_eq h.tree_eq, loopedRoot_eq _, Checkpoint.computeRootFromLeaves_eq _,
    loopedRoot_eq _⟩
  rw [h.tree_eq, recomputeTree_eq]

end Runs

-- A log of three leaves, the first of them a signed event's, under a short hash.

def sampleCrypto : LogCrypto Unit where
  sha256 b := BitVec.ofNat 256 (b.foldl (fun h u => (257*h+u.toNat+1)%1000003) 7)
  serialize event := .ok (beBytes 8 event.sequence ++ hashBytes event.prevHash)
  eventTypeTag _ := 8
  extractPublicKeyFromDid _ := .ok []
  verifyEd25519Signature _ _ _ := .ok ()

def sampleEvent : Event Unit := ⟨(), [], 0, 0, [], genesisPrevHash, []⟩

def sampleLeaf : Hash := sampleCrypto.sha256 (0x00 :: (beBytes 8 0 ++ hashBytes genesisPrevHash))

def sampleLog : Log Unit :=
  (((Log.new "ctx").pushed sampleCrypto sampleLeaf sampleEvent).pushLeafRaw sampleCrypto
    2).pushLeafRaw sampleCrypto 3

theorem sampleLog_run : LogRun sampleCrypto sampleLog := by
  have hfirst : LogRun sampleCrypto ((Log.new "ctx").pushed sampleCrypto sampleLeaf sampleEvent) :=
    .append (.new "ctx") (append_ok.mpr ⟨rfl, rfl, by decide +kernel, sampleLeaf,
      by decide +kernel, rfl, rfl⟩)
  exact .pushLeafRaw 3 (.pushLeafRaw 2 hfirst)

theorem log_tree_is_rfc6962_sample :
    sampleLog.leaves = [sampleLeaf, 2, 3] ∧
      sampleLog.root sampleCrypto = merkleTreeHash sampleCrypto [sampleLeaf, 2, 3] :=
  ⟨rfl, (log_tree_is_rfc6962 sampleLog_run).2.1⟩

end ScpCore.EventLog
