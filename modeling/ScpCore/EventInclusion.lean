import ScpCore.EventPruning

/-! Inclusion and absence proofs made from an event log. The path of a leaf is read off the
layers, so it verifies against the root; a hash that is not a leaf is bracketed by the nearest
leaves below and above it. -/

namespace ScpCore.EventLog

open Merkle

/-- The byte order of the hashes, which are big-endian. -/
instance : LinearOrder Hash where
  le_refl := BitVec.le_refl
  le_trans _ _ _ := BitVec.le_trans
  le_antisymm _ _ := BitVec.le_antisymm
  le_total := BitVec.le_total
  lt_iff_le_not_ge a b := by
    rw [BitVec.le_def, BitVec.le_def, BitVec.lt_def]
    omega
  toDecidableLE := fun a b => inferInstanceAs (Decidable (a ≤ b))

structure LeafWithProof where
  leafHash : Hash
  leafIndex : ℕ
  inclusionProof : InclusionProof
  deriving DecidableEq

structure AbsenceProof where
  queryHash : Hash
  lower : Option LeafWithProof
  upper : Option LeafWithProof
  root : Hash
  leafCount : ℕ
  deriving DecidableEq

section Prove
variable {κ : Type} (C : LogCrypto κ) (log : Log κ)

def proveInclusion (leafIndex : ℕ) : Except EventLogError InclusionProof := do
  let leafCount := log.eventCount
  require (leafCount ≠ 0) .emptyLog
  require (leafIndex < leafCount) (.leafIndexOutOfBounds leafIndex leafCount)
  let leafHash := log.leaves.getD leafIndex 0
  if leafCount = 1 then
    pure ⟨leafIndex, leafHash, [], log.root C⟩
  else
    pure ⟨leafIndex, leafHash, siblingStep leafIndex log.leaves ++
      layerSteps (leafIndex/2) (log.tree.take (log.tree.length-1)), log.root C⟩

/-- The largest index a leaf can have, `u64::MAX`. -/
def maxIndex : ℕ := 2^64-1

/-- The leaves in the order of the sorted set: by hash, then by index. -/
def Log.sorted : Finset (Hash ×ₗ ℕ) := log.sortedLeaves.image toLex

/-- A neighbour with the proof that it is in the log. -/
def leafWithProof (key : Hash ×ₗ ℕ) : Except EventLogError LeafWithProof := do
  let inclusionProof ← proveInclusion C log (ofLex key).2
  pure ⟨(ofLex key).1, (ofLex key).2, inclusionProof⟩

/-- `Option::map` and `transpose` over the neighbours a range query finds. -/
def neighbour : Option (Hash ×ₗ ℕ) → Except EventLogError (Option LeafWithProof)
  | none => pure none
  | some key => do
    let found ← leafWithProof C log key
    pure (some found)

/-- The last element of `range(..bound)`. -/
def lastBelow (bound : Hash ×ₗ ℕ) : Option (Hash ×ₗ ℕ) := (log.sorted.filter (· < bound)).max

/-- The first element of `range(bound..)`. -/
def firstFrom (bound : Hash ×ₗ ℕ) : Option (Hash ×ₗ ℕ) := (log.sorted.filter (bound ≤ ·)).min

def proveAbsence (eventHash : Hash) : Except EventLogError AbsenceProof := do
  let leafCount := log.eventCount
  require (leafCount ≠ 0) .emptyLog
  let exactMatch := log.sorted.filter
    (fun key => toLex (eventHash, 0) ≤ key ∧ key ≤ toLex (eventHash, maxIndex))
  require (exactMatch = ∅) .absenceProofForPresentEvent
  let lower ← neighbour C log (lastBelow log (toLex (eventHash, 0)))
  let upper ← neighbour C log (firstFrom log (toLex (eventHash, maxIndex)))
  pure ⟨eventHash, lower, upper, log.root C, leafCount⟩

end Prove

section Complete
variable {κ : Type} {C : LogCrypto κ} {log : Log κ}

/-- The sorted set holds every leaf under its index. -/
theorem LogRun.mem_sortedLeaves (h : LogRun C log) {hash : Hash} {i : ℕ} :
    (hash, i) ∈ log.sortedLeaves ↔ log.leaves[i]? = some hash := by
  have hpush : ∀ (leaves : List Hash) (sorted : Finset (Hash × ℕ)) (leaf : Hash),
      ((hash, i) ∈ sorted ↔ leaves[i]? = some hash) →
      ((hash, i) ∈ insert (leaf, leaves.length) sorted ↔ (leaves ++ [leaf])[i]? = some hash) := by
    intro leaves sorted leaf ih
    rw [Finset.mem_insert, ih, Prod.mk.injEq]
    by_cases hi : i < leaves.length
    · rw [List.getElem?_append_left hi]
      constructor
      · intro h
        rcases h with ⟨-, rfl⟩ | h
        · omega
        · exact h
      · exact Or.inr
    · rw [List.getElem?_append_right (by omega), List.getElem?_eq_none (by omega)]
      by_cases heq : i = leaves.length
      · simp [heq, eq_comm]
      · rw [List.getElem?_eq_none (by simp; omega)]
        simp [heq]
  induction h with
  | new contextId => simp [Log.new]
  | append _ ok ih =>
    obtain ⟨_, _, _, leaf, _, _, rfl⟩ := append_ok.mp ok
    exact hpush _ _ leaf ih
  | appendUnsignedEvent _ ok ih =>
    obtain ⟨_, _, leaf, _, _, rfl⟩ := appendUnsignedEvent_ok.mp ok
    exact hpush _ _ leaf ih
  | pushLeafRaw leaf _ ih => exact hpush _ _ leaf ih

theorem LogRun.mem_sorted (h : LogRun C log) {key : Hash ×ₗ ℕ} :
    key ∈ log.sorted ↔ log.leaves[(ofLex key).2]? = some (ofLex key).1 := by
  rw [← h.mem_sortedLeaves, Log.sorted, Finset.mem_image]
  constructor
  · intro hmem
    obtain ⟨pair, hpair, rfl⟩ := hmem
    exact hpair
  · intro hmem
    exact ⟨ofLex key, hmem, rfl⟩

/-- As many layers as halvings lead to one node. -/
theorem length_layers {α : Type} (f : α → α → α) (l : List α) :
    (layers f l).length = Nat.clog 2 l.length := by
  induction hn : l.length using Nat.strong_induction_on generalizing l with
  | _ n ih =>
    subst hn
    by_cases hlen : 2 ≤ l.length
    · have hup := length_pairUp (f := f) l
      rw [layers_cons hlen, List.length_cons, ih _ (by omega) _ rfl, hup,
        Nat.clog_of_two_le (by omega) hlen]
      rfl
    · rw [layers_small (by omega), List.length_nil, Nat.clog_of_right_le_one (by omega)]

theorem length_siblingStep (idx : ℕ) (layer : List Hash) : (siblingStep idx layer).length ≤ 1 := by
  unfold siblingStep
  dsimp only
  split_ifs <;> simp

theorem length_layerSteps (idx : ℕ) (layers : List (List Hash)) :
    (layerSteps idx layers).length ≤ layers.length := by
  induction layers generalizing idx with
  | nil => simp [layerSteps]
  | cons layer layers ih =>
    have hstep := length_siblingStep idx layer
    have hrest := ih (idx/2)
    rw [layerSteps, List.length_append, List.length_cons]
    omega

/-- The path has at most one step a layer. -/
theorem length_buildProofPath (f : Hash → Hash → Hash) (idx : ℕ) (leaves : List Hash) :
    (buildProofPath idx leaves (layers f leaves)).length ≤ Nat.clog 2 leaves.length := by
  rw [buildProofPath, ← length_layers f]
  split_ifs with hsmall
  · simp
  · have hcons := layers_cons (f := f) (l := leaves) (by omega)
    have hstep := length_siblingStep idx leaves
    have hrest := length_layerSteps (idx/2) ((layers f leaves).take ((layers f leaves).length-1))
    rw [List.length_take] at hrest
    have hpos : 0 < (layers f leaves).length := by
      rw [hcons]
      simp
    rw [List.length_append]
    omega

theorem proveInclusion_eq (h : LogRun C log) {i : ℕ} {leaf : Hash}
    (hi : log.leaves[i]? = some leaf) :
    proveInclusion C log i = .ok ⟨i, leaf,
      buildProofPath i log.leaves (layers (hashPair C) log.leaves), log.root C⟩ := by
  obtain ⟨hlt, -⟩ := List.getElem?_eq_some_iff.mp hi
  have hcount : log.eventCount = log.leaves.length := rfl
  have hget : log.leaves.getD i 0 = leaf := by rw [List.getD_eq_getElem?_getD, hi, Option.getD_some]
  have hne : log.leaves.length ≠ 0 := by omega
  simp only [proveInclusion, hcount, hne, hlt, hget, require, ne_eq, not_false_eq_true,
    decide_true, if_true, ← h.tree_eq, buildProofPath]
  by_cases hone : log.leaves.length = 1
  · rw [if_pos hone, if_pos hone.le]
    rfl
  · rw [if_neg hone, if_neg (by omega)]
    rfl

/-- A proof that the leaf is in the log at that index, of at most logarithmic length. -/
structure ProvesLeaf (C : LogCrypto κ) (log : Log κ) (leafIndex : ℕ) (leafHash : Hash)
    (proof : InclusionProof) : Prop where
  isLeaf : log.leaves[leafIndex]? = some leafHash
  hash : proof.leafHash = leafHash
  index : proof.leafIndex = leafIndex
  root : proof.root = log.root C
  verifies : verifyInclusion C proof = true
  short : proof.path.length ≤ Nat.clog 2 log.leaves.length

theorem proveInclusion_proves (h : LogRun C log) {i : ℕ} {leaf : Hash}
    (hi : log.leaves[i]? = some leaf) :
    ∃ proof, proveInclusion C log i = .ok proof ∧ ProvesLeaf C log i leaf proof := by
  refine ⟨_, proveInclusion_eq h hi, hi, rfl, rfl, rfl, ?_, length_buildProofPath _ _ _⟩
  obtain ⟨hlt, -⟩ := List.getElem?_eq_some_iff.mp hi
  have hwalk := walkPath_buildProofPath (C := C) hlt
  rw [List.getD_eq_getElem?_getD, hi, Option.getD_some, ← root_eq h.tree_eq] at hwalk
  exact decide_eq_true hwalk

/-- The neighbour of an absence proof on one side of its hash: none where no leaf is on that
side, else the nearest of them with its proof. -/
def NeighbourIs (C : LogCrypto κ) (log : Log κ) (side : Set Hash)
    (nearest : Set Hash → Hash → Prop) : Option LeafWithProof → Prop
  | none => side = ∅
  | some found => nearest side found.leafHash ∧
      ProvesLeaf C log found.leafIndex found.leafHash found.inclusionProof

theorem neighbour_some (h : LogRun C log) {key : Hash ×ₗ ℕ} (hkey : key ∈ log.sorted) :
    ∃ proof, neighbour C log (some key) = .ok (some ⟨(ofLex key).1, (ofLex key).2, proof⟩) ∧
      ProvesLeaf C log (ofLex key).2 (ofLex key).1 proof := by
  obtain ⟨proof, hproof, hproves⟩ := proveInclusion_proves h (h.mem_sorted.mp hkey)
  refine ⟨proof, ?_, hproves⟩
  rw [neighbour, leafWithProof, hproof]
  rfl

/-- A leaf is before the keys of `hash` just where it is below it. -/
theorem lt_key_iff {key : Hash ×ₗ ℕ} {hash : Hash} :
    key < toLex (hash, 0) ↔ (ofLex key).1 < hash := by
  rw [Prod.Lex.lt_iff]
  simp

/-- A leaf of another hash is after the keys of `hash` just where it is above it. -/
theorem key_le_iff {key : Hash ×ₗ ℕ} {hash : Hash} (hne : (ofLex key).1 ≠ hash) :
    toLex (hash, maxIndex) ≤ key ↔ hash < (ofLex key).1 := by
  rw [Prod.Lex.le_iff]
  simp [hne.symm]

theorem exactMatch_eq_empty_iff (h : LogRun C log) (hlen : log.leaves.length < 2^64) (hash : Hash) :
    log.sorted.filter (fun key => toLex (hash, 0) ≤ key ∧ key ≤ toLex (hash, maxIndex)) = ∅ ↔
      hash ∉ log.leaves := by
  rw [Finset.filter_eq_empty_iff]
  constructor
  · intro hnone hmem
    obtain ⟨i, hi⟩ := List.mem_iff_getElem?.mp hmem
    obtain ⟨hlt, -⟩ := List.getElem?_eq_some_iff.mp hi
    apply hnone (x := toLex (hash, i)) (h.mem_sorted.mpr hi)
    constructor
    · rw [Prod.Lex.le_iff]
      simp
    · rw [Prod.Lex.le_iff]
      simp only [ofLex_toLex, lt_irrefl, true_and, false_or, maxIndex]
      omega
  · intro hnot key hkey hbetween
    have hle := hbetween.1
    have hge := hbetween.2
    rw [Prod.Lex.le_iff] at hle hge
    have heq : (ofLex key).1 = hash := by
      rcases hle with hlt | heq
      · rcases hge with hgt | heq
        · exact absurd (lt_trans hlt hgt) (lt_irrefl _)
        · exact heq.1
      · exact heq.1.symm
    apply hnot
    rw [← heq]
    exact List.mem_of_getElem? (h.mem_sorted.mp hkey)

theorem mem_side_iff (h : LogRun C log) {side : Hash → Prop} {leaf : Hash} :
    leaf ∈ {leaf | leaf ∈ log.leaves ∧ side leaf} ↔
      ∃ key ∈ log.sorted, (ofLex key).1 = leaf ∧ side leaf := by
  constructor
  · intro hleaf
    obtain ⟨i, hi⟩ := List.mem_iff_getElem?.mp hleaf.1
    exact ⟨toLex (leaf, i), h.mem_sorted.mpr hi, rfl, hleaf.2⟩
  · intro hkey
    obtain ⟨key, hmem, rfl, hside⟩ := hkey
    exact ⟨List.mem_of_getElem? (h.mem_sorted.mp hmem), hside⟩

theorem lower_neighbour (h : LogRun C log) (hash : Hash) :
    ∃ lower, neighbour C log (lastBelow log (toLex (hash, 0))) = .ok lower ∧
      NeighbourIs C log {leaf | leaf ∈ log.leaves ∧ leaf < hash} IsGreatest lower := by
  cases hfound : lastBelow log (toLex (hash, 0)) with
  | none =>
    refine ⟨none, rfl, ?_⟩
    rw [lastBelow] at hfound
    have hempty := Finset.filter_eq_empty_iff.mp (Finset.max_eq_bot.mp hfound)
    apply Set.eq_empty_of_forall_notMem
    intro leaf hleaf
    obtain ⟨key, hkey, rfl, hlt⟩ := (mem_side_iff h).mp hleaf
    exact hempty hkey (lt_key_iff.mpr hlt)
  | some key =>
    rw [lastBelow] at hfound
    obtain ⟨hkey, hlt⟩ := Finset.mem_filter.mp (Finset.mem_of_max hfound)
    obtain ⟨proof, hproof, hproves⟩ := neighbour_some h hkey
    refine ⟨_, hproof, ⟨?_, ?_⟩, hproves⟩
    · exact (mem_side_iff h).mpr ⟨key, hkey, rfl, lt_key_iff.mp hlt⟩
    · intro leaf hleaf
      obtain ⟨other, hother, rfl, hbelow⟩ := (mem_side_iff h).mp hleaf
      have hle := Finset.le_max_of_eq (Finset.mem_filter.mpr ⟨hother, lt_key_iff.mpr hbelow⟩) hfound
      exact Prod.Lex.monotone_fst_ofLex hle

theorem upper_neighbour (h : LogRun C log) {hash : Hash} (hnot : hash ∉ log.leaves) :
    ∃ upper, neighbour C log (firstFrom log (toLex (hash, maxIndex))) = .ok upper ∧
      NeighbourIs C log {leaf | leaf ∈ log.leaves ∧ hash < leaf} IsLeast upper := by
  -- No key carries the hash itself.
  have hne : ∀ key ∈ log.sorted, (ofLex key).1 ≠ hash := by
    intro key hkey heq
    apply hnot
    rw [← heq]
    exact List.mem_of_getElem? (h.mem_sorted.mp hkey)
  cases hfound : firstFrom log (toLex (hash, maxIndex)) with
  | none =>
    refine ⟨none, rfl, ?_⟩
    rw [firstFrom] at hfound
    have hempty := Finset.filter_eq_empty_iff.mp (Finset.min_eq_top.mp hfound)
    apply Set.eq_empty_of_forall_notMem
    intro leaf hleaf
    obtain ⟨key, hkey, rfl, hlt⟩ := (mem_side_iff h).mp hleaf
    exact hempty hkey ((key_le_iff (hne key hkey)).mpr hlt)
  | some key =>
    rw [firstFrom] at hfound
    obtain ⟨hkey, hle⟩ := Finset.mem_filter.mp (Finset.mem_of_min hfound)
    obtain ⟨proof, hproof, hproves⟩ := neighbour_some h hkey
    refine ⟨_, hproof, ⟨?_, ?_⟩, hproves⟩
    · exact (mem_side_iff h).mpr ⟨key, hkey, rfl, (key_le_iff (hne key hkey)).mp hle⟩
    · intro leaf hleaf
      obtain ⟨other, hother, rfl, habove⟩ := (mem_side_iff h).mp hleaf
      have hmin := Finset.min_le_of_eq
        (Finset.mem_filter.mpr ⟨hother, (key_le_iff (hne other hother)).mpr habove⟩) hfound
      exact Prod.Lex.monotone_fst_ofLex hmin

/-- What an absence proof of a hash says. -/
structure ProvesAbsence (C : LogCrypto κ) (log : Log κ) (hash : Hash) (proof : AbsenceProof) :
    Prop where
  query : proof.queryHash = hash
  lower : NeighbourIs C log {leaf | leaf ∈ log.leaves ∧ leaf < hash} IsGreatest proof.lower
  upper : NeighbourIs C log {leaf | leaf ∈ log.leaves ∧ hash < leaf} IsLeast proof.upper
  root : proof.root = log.root C
  leafCount : proof.leafCount = log.leaves.length

theorem proveAbsence_present (h : LogRun C log) (hlen : log.leaves.length < 2^64) {hash : Hash}
    (hmem : hash ∈ log.leaves) :
    proveAbsence C log hash = .error .absenceProofForPresentEvent := by
  have hne : log.eventCount ≠ 0 := by
    have := List.length_pos_of_mem hmem
    exact this.ne'
  have hexact := mt (exactMatch_eq_empty_iff h hlen hash).mp (not_not.mpr hmem)
  simp only [proveAbsence, require, hne, hexact, ne_eq, not_false_eq_true, decide_true,
    decide_false, if_true]
  rfl

theorem proveAbsence_absent (h : LogRun C log) (hne : log.leaves ≠ [])
    (hlen : log.leaves.length < 2^64) {hash : Hash} (hnot : hash ∉ log.leaves) :
    ∃ proof, proveAbsence C log hash = .ok proof ∧ ProvesAbsence C log hash proof := by
  have hcount : log.eventCount ≠ 0 := List.length_eq_zero_iff.not.mpr hne
  have hexact := (exactMatch_eq_empty_iff h hlen hash).mpr hnot
  obtain ⟨lower, hlower, hbelow⟩ := lower_neighbour h hash
  obtain ⟨upper, hupper, habove⟩ := upper_neighbour h hnot
  refine ⟨⟨hash, lower, upper, log.root C, log.eventCount⟩, ?_, rfl, hbelow, habove, rfl, rfl⟩
  simp only [proveAbsence, require, hcount, hexact, hlower, hupper, ne_eq, not_false_eq_true,
    decide_true, if_true]
  rfl

end Complete

/-- Every leaf of a log has an inclusion proof that verifies and is at most logarithmic in length;
a hash has an absence proof exactly when it is no leaf, and it names the nearest leaves on both
sides, with proofs that verify. -/
theorem inclusion_and_absence_complete {κ : Type} {C : LogCrypto κ} {log : Log κ}
    (hrun : LogRun C log) (hne : log.leaves ≠ []) (hlen : log.leaves.length < 2^64) :
    (∀ (i : ℕ) (leaf : Hash), log.leaves[i]? = some leaf →
      ∃ proof, proveInclusion C log i = .ok proof ∧ ProvesLeaf C log i leaf proof) ∧
    ∀ hash : Hash,
      (proveAbsence C log hash = .error .absenceProofForPresentEvent ↔ hash ∈ log.leaves) ∧
      (hash ∉ log.leaves →
        ∃ proof, proveAbsence C log hash = .ok proof ∧ ProvesAbsence C log hash proof) := by
  refine ⟨fun i leaf hi => proveInclusion_proves hrun hi, fun hash => ⟨⟨?_, ?_⟩, ?_⟩⟩
  · intro herr
    by_contra hnot
    obtain ⟨proof, hok, -⟩ := proveAbsence_absent hrun hne hlen hnot
    rw [hok] at herr
    cases herr
  · exact proveAbsence_present hrun hlen
  · exact proveAbsence_absent hrun hne hlen

theorem inclusion_and_absence_complete_sample :
    (∃ proof, proveInclusion sampleCrypto sampleLog 2 = .ok proof ∧
      ProvesLeaf sampleCrypto sampleLog 2 3 proof) ∧
    ∃ proof, proveAbsence sampleCrypto sampleLog 4 = .ok proof ∧
      ProvesAbsence sampleCrypto sampleLog 4 proof := by
  have hleaves : sampleLog.leaves = [sampleLeaf, 2, 3] := rfl
  have hall := inclusion_and_absence_complete sampleLog_run (by simp [hleaves]) (by simp [hleaves])
  exact ⟨hall.1 2 3 rfl, (hall.2 4).2 (by decide +kernel)⟩

end ScpCore.EventLog
