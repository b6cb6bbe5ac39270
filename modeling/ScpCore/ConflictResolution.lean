import ScpCore.ExactRead
import ScpCore.Elimination

/-! Conflicts between governance proposals that were made offline. Two proposals that
cannot both be carried out are ordered by their leaves in the event log, or freeze the
context where the log does not order them. -/

namespace ScpCore.Governance

abbrev Did := String

abbrev ProposalId := Bytes

/-- The actions that conflict with no other. -/
inductive UnopposedAction
  | addMember | registerOutlet | removeOutlet | closeContext | extendTtl | transferAdmin
  | createChildContext | establishOutletInterface | resolveConflict | promoteContext
  | setEconomicPolicy | approveSpend | lockEconomicPolicy | proposeContextMigration
  | cancelContextMigration | modifyHardRateLimit | modifyPseudonymRotationPolicy
  deriving DecidableEq

/-- An action with the fields that the conflict matrix reads. -/
inductive GovernanceAction
  | removeMember (did : Did)
  | changeRole (did : Did) (newRole : String)
  | modifyCeiling
  | suspendCapability (did : Did)
  | suspendAccess (did : Did)
  | revokeAccess (did : Did)
  | restoreAccess (did : Did)
  | modifyPruningPolicy
  | addSigner (did : Did)
  | removeSigner (did : Did)
  | modifyThreshold
  | resetMember (did : Did)
  | rotateContentKeys
  | reconfigureGovernance
  | modifyCapabilityRequirements
  | unopposed (action : UnopposedAction)
  deriving DecidableEq

open GovernanceAction in
/-- The conflict matrix. -/
def actionsConflict (actionA : GovernanceAction) (proposerA : Did) (actionB : GovernanceAction)
    (proposerB : Did) : Bool :=
  match actionA, actionB with
  | changeRole a roleA, changeRole b roleB => a = b && roleA ≠ roleB
  | modifyCeiling, modifyCeiling
  | modifyThreshold, modifyThreshold
  | modifyPruningPolicy, modifyPruningPolicy
  | modifyCapabilityRequirements, modifyCapabilityRequirements
  | reconfigureGovernance, reconfigureGovernance
  | rotateContentKeys, rotateContentKeys => true
  | removeMember a, removeMember b => a = b || (a = proposerB && b = proposerA)
  | removeMember a, changeRole b _
  | changeRole a _, removeMember b
  -- The same action twice.
  | revokeAccess a, revokeAccess b
  | suspendCapability a, suspendCapability b
  | suspendAccess a, suspendAccess b
  | restoreAccess a, restoreAccess b
  -- Two enforcement actions.
  | suspendCapability a, suspendAccess b
  | suspendAccess a, suspendCapability b
  | suspendCapability a, revokeAccess b
  | revokeAccess a, suspendCapability b
  | suspendAccess a, revokeAccess b
  | revokeAccess a, suspendAccess b
  | removeMember a, revokeAccess b
  | revokeAccess a, removeMember b
  | removeMember a, suspendCapability b
  | suspendCapability a, removeMember b
  | removeMember a, suspendAccess b
  | suspendAccess a, removeMember b
  -- Enforcement and restoration.
  | revokeAccess a, restoreAccess b
  | restoreAccess a, revokeAccess b
  | suspendCapability a, restoreAccess b
  | restoreAccess a, suspendCapability b
  | suspendAccess a, restoreAccess b
  | restoreAccess a, suspendAccess b
  | removeMember a, restoreAccess b
  | restoreAccess a, removeMember b
  -- A reset of the member.
  | resetMember a, removeMember b
  | removeMember a, resetMember b
  | resetMember a, changeRole b _
  | changeRole a _, resetMember b
  | resetMember a, suspendCapability b
  | suspendCapability a, resetMember b
  | resetMember a, suspendAccess b
  | suspendAccess a, resetMember b
  | resetMember a, revokeAccess b
  | revokeAccess a, resetMember b
  | resetMember a, restoreAccess b
  | restoreAccess a, resetMember b
  | resetMember a, resetMember b => a = b
  | addSigner a, removeSigner b
  | removeSigner b, addSigner a => a = b
  | _, _ => false

def isMutualRemoval (a : GovernanceAction) (proposerA : Did) (b : GovernanceAction)
    (proposerB : Did) : Bool :=
  match a, b with
  | .removeMember didA, .removeMember didB => didA = proposerB && didB = proposerA
  | _, _ => false

theorem actionsConflict_comm (a : GovernanceAction) (p : Did) (b : GovernanceAction) (q : Did) :
    actionsConflict a p b q = actionsConflict b q a p := by
  cases a <;> cases b <;> simp only [actionsConflict, eq_comm, ne_comm, Bool.and_comm]

theorem isMutualRemoval_comm (a : GovernanceAction) (p : Did) (b : GovernanceAction) (q : Did) :
    isMutualRemoval a p b q = isMutualRemoval b q a p := by
  cases a <;> cases b <;> simp only [isMutualRemoval, Bool.and_comm]

structure GovernanceProposalSnapshot where
  proposalId : ProposalId
  proposerDid : Did
  action : GovernanceAction
  leafIndex : ℕ
  deriving DecidableEq

namespace GovernanceProposalSnapshot

def conflicts (p q : GovernanceProposalSnapshot) : Bool :=
  actionsConflict p.action p.proposerDid q.action q.proposerDid

def removesEachOther (p q : GovernanceProposalSnapshot) : Bool :=
  isMutualRemoval p.action p.proposerDid q.action q.proposerDid

end GovernanceProposalSnapshot

inductive ConflictPairKind
  | simultaneousCommit | mutualRemoval | regular
  deriving DecidableEq

structure ClassifiedPair where
  i : ℕ
  j : ℕ
  kind : ConflictPairKind
  deriving DecidableEq

def pairKind (p q : GovernanceProposalSnapshot) : ConflictPairKind :=
  if p.leafIndex = q.leafIndex then .simultaneousCommit
  else if p.removesEachOther q then .mutualRemoval
  else .regular

/-- The pairs from position `i` on, by their first and then by their second position. -/
def classifyFrom (i : ℕ) : List GovernanceProposalSnapshot → List ClassifiedPair
  | [] => []
  | p :: rest =>
    (rest.zipIdx (i+1)).filterMap (fun e =>
      if p.conflicts e.1 then some ⟨i, e.2, pairKind p e.1⟩ else none) ++ classifyFrom (i+1) rest

def classifyConflictPairs (proposals : List GovernanceProposalSnapshot) : List ClassifiedPair :=
  classifyFrom 0 proposals

inductive ConflictResolutionStrategy
  | merkleOrdered (winnerProposalId loserProposalId : ProposalId)
  | governanceFreeze (conflictingProposals : List ProposalId)
  deriving DecidableEq

inductive ConflictResolutionError
  | emptyProposals
  | notConflicting (reason : String)
  deriving DecidableEq

/-- The ids of both proposals of every pair, sorted and without repetition. -/
def conflictingIds (proposals : List GovernanceProposalSnapshot) (pairs : List ClassifiedPair) :
    List ProposalId :=
  (((pairs.flatMap (fun pair => [pair.i, pair.j])).filterMap (fun k =>
    proposals[k]?.map (·.proposalId))).insertionSort (· ≤ ·)).dedup

/-- The loop over what remains. One round drops the loser of the first pair, so as many
rounds as there are proposals are enough. -/
def resolveLoop : ℕ → List GovernanceProposalSnapshot →
    List ConflictResolutionStrategy × List GovernanceProposalSnapshot
  | 0, remaining => ([], remaining)
  | rounds+1, remaining =>
    match (classifyConflictPairs remaining).head? with
    | none => ([], remaining)
    | some first =>
      match remaining[first.i]?, remaining[first.j]? with
      | some p, some q =>
        let (winner, loser, loserIdx) :=
          if p.leafIndex < q.leafIndex then (p, q, first.j) else (q, p, first.i)
        let rest := resolveLoop rounds (remaining.eraseIdx loserIdx)
        (.merkleOrdered winner.proposalId loser.proposalId :: rest.1, rest.2)
      | _, _ => ([], remaining)

def resolveAllGovernanceConflicts (proposals : List GovernanceProposalSnapshot) :
    Except ConflictResolutionError (List ConflictResolutionStrategy) :=
  if proposals.isEmpty then .error .emptyProposals
  else if proposals.length = 1 then .error (.notConflicting "only one proposal provided")
  else
    let classified := classifyConflictPairs proposals
    if classified.isEmpty then .error (.notConflicting "no conflicting action pairs found")
    else if classified.any (fun pair => pair.kind ≠ .regular) then
      .ok [.governanceFreeze (conflictingIds proposals classified)]
    else .ok (resolveLoop proposals.length proposals).1

section Pairs
variable {proposals : List GovernanceProposalSnapshot}

theorem conflicts_comm (p q : GovernanceProposalSnapshot) : p.conflicts q = q.conflicts p :=
  actionsConflict_comm _ _ _ _

theorem pairKind_comm (p q : GovernanceProposalSnapshot) : pairKind p q = pairKind q p := by
  have hmutual : p.removesEachOther q = q.removesEachOther p := isMutualRemoval_comm _ _ _ _
  unfold pairKind
  simp only [hmutual, eq_comm]

theorem mem_classifyFrom (start : ℕ) (pair : ClassifiedPair) :
    pair ∈ classifyFrom start proposals ↔ ∃ m n p q, m < n ∧ proposals[m]? = some p ∧
      proposals[n]? = some q ∧ p.conflicts q = true ∧
      pair = ⟨start+m, start+n, pairKind p q⟩ := by
  induction proposals generalizing start with
  | nil => simp [classifyFrom]
  | cons a rest ih =>
    rw [classifyFrom, List.mem_append, List.mem_filterMap, ih]
    constructor
    · rintro (⟨⟨q, k⟩, hmem, hsome⟩ | ⟨m, n, p, q, hmn, hp, hq, hconf, rfl⟩)
      · rw [List.mem_zipIdx_iff_le_and_getElem?_sub] at hmem
        by_cases hconf : a.conflicts q = true
        · simp only [hconf, if_true, Option.some.injEq] at hsome
          refine ⟨0, k-start, a, q, by omega, rfl, ?_, hconf, ?_⟩
          · obtain ⟨n, hn⟩ : ∃ n, k-start = n+1 := ⟨k-start-1, by omega⟩
            rw [hn, List.getElem?_cons_succ]
            have hk : k-(start+1) = n := by omega
            rw [← hk]
            exact hmem.2
          · rw [← hsome]
            congr 1
            omega
        · simp [hconf] at hsome
      · refine ⟨m+1, n+1, p, q, by omega, by simpa using hp, by simpa using hq, hconf, ?_⟩
        congr 1 <;> omega
    · rintro ⟨m, n, p, q, hmn, hp, hq, hconf, rfl⟩
      obtain ⟨n, rfl⟩ : ∃ n', n = n'+1 := ⟨n-1, by omega⟩
      rw [List.getElem?_cons_succ] at hq
      -- The left proposal of a pair is the head of the list or lies in its tail.
      cases m with
      | zero =>
        left
        obtain rfl : a = p := by simpa using hp
        refine ⟨(q, start+(n+1)), ?_, by simp [hconf]⟩
        rw [List.mem_zipIdx_iff_le_and_getElem?_sub]
        refine ⟨by omega, ?_⟩
        have hk : start+(n+1)-(start+1) = n := by omega
        rw [hk]
        exact hq
      | succ m =>
        right
        refine ⟨m, n, p, q, by omega, by simpa using hp, hq, hconf, ?_⟩
        congr 1 <;> omega

/-- The classified pairs are the conflicting pairs of positions. -/
theorem mem_classifyConflictPairs (pair : ClassifiedPair) :
    pair ∈ classifyConflictPairs proposals ↔ ∃ p q, pair.i < pair.j ∧
      proposals[pair.i]? = some p ∧ proposals[pair.j]? = some q ∧ p.conflicts q = true ∧
      pair.kind = pairKind p q := by
  rw [classifyConflictPairs, mem_classifyFrom]
  constructor
  · rintro ⟨m, n, p, q, hmn, hp, hq, hconf, rfl⟩
    exact ⟨p, q, by simpa using hmn, by simpa using hp, by simpa using hq, hconf, rfl⟩
  · rintro ⟨p, q, hlt, hp, hq, hconf, hkind⟩
    refine ⟨pair.i, pair.j, p, q, hlt, hp, hq, hconf, ?_⟩
    cases pair
    simp only at hkind
    simp [hkind]

/-- Two proposals that conflict make a pair, in one order or the other. -/
theorem exists_classified {p q : GovernanceProposalSnapshot} (hp : p ∈ proposals)
    (hq : q ∈ proposals) (hne : p ≠ q) (hconf : p.conflicts q = true) :
    ∃ pair ∈ classifyConflictPairs proposals, pair.kind = pairKind p q ∧
      (proposals[pair.i]? = some p ∧ proposals[pair.j]? = some q ∨
        proposals[pair.i]? = some q ∧ proposals[pair.j]? = some p) := by
  obtain ⟨m, hm⟩ := List.mem_iff_getElem?.mp hp
  obtain ⟨n, hn⟩ := List.mem_iff_getElem?.mp hq
  rcases lt_trichotomy m n with hlt | rfl | hlt
  · exact ⟨⟨m, n, pairKind p q⟩, (mem_classifyConflictPairs _).mpr
      ⟨p, q, hlt, hm, hn, hconf, rfl⟩, rfl, Or.inl ⟨hm, hn⟩⟩
  · rw [hm, Option.some.injEq] at hn
    exact absurd hn hne
  · rw [conflicts_comm] at hconf
    exact ⟨⟨n, m, pairKind q p⟩, (mem_classifyConflictPairs _).mpr
      ⟨q, p, hlt, hn, hm, hconf, rfl⟩, pairKind_comm q p, Or.inr ⟨hn, hm⟩⟩

theorem ne_of_getElem? (hnodup : proposals.Nodup) {m n : ℕ} {p q : GovernanceProposalSnapshot}
    (hmn : m < n) (hp : proposals[m]? = some p) (hq : proposals[n]? = some q) : p ≠ q := by
  rintro rfl
  have hm : m < proposals.length := (List.getElem?_eq_some_iff.mp hp).1
  have heq : m = n := (List.getElem?_inj hm hnodup).mp (hp.trans hq.symm)
  omega

/-- Where nothing is classified no two proposals conflict. -/
theorem conflicts_eq_false (h : classifyConflictPairs proposals = [])
    {p q : GovernanceProposalSnapshot} (hp : p ∈ proposals) (hq : q ∈ proposals) (hne : p ≠ q) :
    p.conflicts q = false := by
  by_contra hconf
  obtain ⟨pair, hmem, -⟩ := exists_classified hp hq hne (by simpa using hconf)
  simp [h] at hmem

/-- Some pair of proposals freezes the context. -/
def freezes (proposals : List GovernanceProposalSnapshot) : Bool :=
  (classifyConflictPairs proposals).any (fun pair => pair.kind ≠ .regular)

theorem freezes_iff (hnodup : proposals.Nodup) : freezes proposals = true ↔
    ∃ p ∈ proposals, ∃ q ∈ proposals, p ≠ q ∧ p.conflicts q = true ∧ pairKind p q ≠ .regular := by
  simp only [freezes, List.any_eq_true, decide_eq_true_eq]
  constructor
  · rintro ⟨pair, hmem, hkind⟩
    obtain ⟨p, q, hlt, hp, hq, hconf, hk⟩ := (mem_classifyConflictPairs pair).mp hmem
    exact ⟨p, List.mem_of_getElem? hp, q, List.mem_of_getElem? hq,
      ne_of_getElem? hnodup hlt hp hq, hconf, hk ▸ hkind⟩
  · rintro ⟨p, hp, q, hq, hne, hconf, hkind⟩
    obtain ⟨pair, hmem, hk, -⟩ := exists_classified hp hq hne hconf
    exact ⟨pair, hmem, hk ▸ hkind⟩

end Pairs

/-- The earlier of two conflicting proposals beats the later one. -/
def Beats (p q : GovernanceProposalSnapshot) : Prop :=
  p.conflicts q = true ∧ p.leafIndex < q.leafIndex

def ConflictResolutionStrategy.eliminated : ConflictResolutionStrategy → List ProposalId
  | .merkleOrdered _ loser => [loser]
  | .governanceFreeze ids => ids

section Loop
variable {proposals : List GovernanceProposalSnapshot}

theorem mem_eraseIdx {k : ℕ} {x : GovernanceProposalSnapshot} (hnodup : proposals.Nodup)
    (hk : proposals[k]? = some x) (p : GovernanceProposalSnapshot) :
    p ∈ proposals.eraseIdx k ↔ p ∈ proposals ∧ p ≠ x := by
  obtain ⟨hlt, hx⟩ := List.getElem?_eq_some_iff.mp hk
  rw [← hnodup.erase_getElem k hlt, hx, hnodup.mem_erase_iff, and_comm]

/-- What the loop has done after some rounds. -/
structure LoopSpec (remaining final : List GovernanceProposalSnapshot)
    (resolutions : List ConflictResolutionStrategy) : Prop where
  eliminates : Eliminates Beats {p | p ∈ remaining} {p | p ∈ final}
  kept_iff : ∀ p ∈ remaining,
    p ∈ final ↔ p.proposalId ∉ resolutions.flatMap ConflictResolutionStrategy.eliminated

theorem resolveLoop_spec (rounds : ℕ) (remaining : List GovernanceProposalSnapshot)
    (hids : (remaining.map (·.proposalId)).Nodup)
    (hleaves : ∀ p ∈ remaining, ∀ q ∈ remaining, p ≠ q → p.conflicts q = true →
      p.leafIndex ≠ q.leafIndex) :
    LoopSpec remaining (resolveLoop rounds remaining).2 (resolveLoop rounds remaining).1 ∧
      (remaining.length ≤ rounds →
        classifyConflictPairs (resolveLoop rounds remaining).2 = []) := by
  induction rounds generalizing remaining with
  | zero =>
    refine ⟨⟨.done _, by simp [resolveLoop]⟩, ?_⟩
    intro hlen
    rw [List.eq_nil_of_length_eq_zero (Nat.le_zero.mp hlen)]
    rfl
  | succ rounds ih =>
    have hnodup : remaining.Nodup := hids.of_map _
    rw [resolveLoop]
    cases hhead : (classifyConflictPairs remaining).head? with
    | none => exact ⟨⟨.done _, by simp⟩, fun _ => List.head?_eq_none_iff.mp hhead⟩
    | some first =>
      obtain ⟨p, q, hlt, hp, hq, hconf, -⟩ :=
        (mem_classifyConflictPairs first).mp (List.mem_of_mem_head? hhead)
      have hne := ne_of_getElem? hnodup hlt hp hq
      have hpmem := List.mem_of_getElem? hp
      have hqmem := List.mem_of_getElem? hq
      -- Whichever of the two is later is the loser, and the earlier one beats it.
      obtain ⟨winner, loser, k, hpick, hk, hwinner, hbeats⟩ :
          ∃ winner loser k, (if p.leafIndex < q.leafIndex then (p, q, first.j) else (q, p, first.i)) =
            (winner, loser, k) ∧ remaining[k]? = some loser ∧ winner ∈ remaining ∧
            Beats winner loser := by
        by_cases hle : p.leafIndex < q.leafIndex
        · exact ⟨p, q, first.j, if_pos hle, hq, hpmem, hconf, hle⟩
        · have hleaf := hleaves p hpmem q hqmem hne hconf
          refine ⟨q, p, first.i, if_neg hle, hp, hqmem, ?_, by omega⟩
          rwa [conflicts_comm]
      have hloser := List.mem_of_getElem? hk
      have hmem := mem_eraseIdx hnodup hk
      have hids' : ((remaining.eraseIdx k).map (·.proposalId)).Nodup :=
        hids.sublist ((List.eraseIdx_sublist remaining k).map _)
      have hleaves' : ∀ a ∈ remaining.eraseIdx k, ∀ b ∈ remaining.eraseIdx k, a ≠ b →
          a.conflicts b = true → a.leafIndex ≠ b.leafIndex :=
        fun a ha b hb => hleaves a ((hmem a).mp ha).1 b ((hmem b).mp hb).1
      obtain ⟨hspec, hdone⟩ := ih (remaining.eraseIdx k) hids' hleaves'
      have hset : {a | a ∈ remaining} \ {loser} = {a | a ∈ remaining.eraseIdx k} := by
        ext a
        simp [hmem a]
      simp only [hp, hq, hpick]
      refine ⟨⟨.drop hwinner hloser hbeats (hset ▸ hspec.eliminates), ?_⟩, ?_⟩
      · intro a ha
        rw [List.flatMap_cons, List.mem_append]
        by_cases hal : a = loser
        · subst hal
          have hout : a ∉ (resolveLoop rounds (remaining.eraseIdx k)).2 := fun hin =>
            ((hmem a).mp (hspec.eliminates.subset hin)).2 rfl
          simp [hout, ConflictResolutionStrategy.eliminated]
        · have hid : a.proposalId ≠ loser.proposalId := fun heq =>
            hal (List.inj_on_of_nodup_map hids ha hloser heq)
          rw [hspec.kept_iff a ((hmem a).mpr ⟨ha, hal⟩)]
          simp [ConflictResolutionStrategy.eliminated, hid]
      · intro hlen
        apply hdone
        rw [List.length_eraseIdx_of_lt (List.getElem?_eq_some_iff.mp hk).1]
        omega

end Loop

/-- The proposals that a resolution does not eliminate. -/
def uneliminated (proposals : List GovernanceProposalSnapshot) : List GovernanceProposalSnapshot :=
  match resolveAllGovernanceConflicts proposals with
  | .error _ => proposals
  | .ok resolutions => proposals.filter (fun p =>
      p.proposalId ∉ resolutions.flatMap ConflictResolutionStrategy.eliminated)

/-- The scan in log order that keeps each proposal which conflicts with no kept one. -/
def keptInLogOrder (proposals : List GovernanceProposalSnapshot) :
    List GovernanceProposalSnapshot :=
  (proposals.insertionSort (fun p q => p.leafIndex ≤ q.leafIndex)).foldl (fun kept p =>
    if kept.any (fun q => q.conflicts p) then kept else kept ++ [p]) []

section Left
variable {proposals : List GovernanceProposalSnapshot}

theorem leaves_ne_of_not_freezes (hnodup : proposals.Nodup) (h : freezes proposals = false) :
    ∀ p ∈ proposals, ∀ q ∈ proposals, p ≠ q → p.conflicts q = true →
      p.leafIndex ≠ q.leafIndex := by
  intro p hp q hq hne hconf hleaf
  have hfreeze : freezes proposals = true :=
    (freezes_iff hnodup).mpr ⟨p, hp, q, hq, hne, hconf, by simp [pairKind, hleaf]⟩
  rw [h] at hfreeze
  cases hfreeze

/-- Without a freeze the proposals left are those of a complete elimination. -/
theorem uneliminated_of_not_freezes (hids : (proposals.map (·.proposalId)).Nodup)
    (h : freezes proposals = false) :
    Eliminates Beats {p | p ∈ proposals} {p | p ∈ uneliminated proposals} ∧
      ∀ p ∈ uneliminated proposals, ∀ q ∈ uneliminated proposals, ¬ Beats p q := by
  have hnodup : proposals.Nodup := hids.of_map _
  have hirrefl : ∀ p, ¬ Beats p p := fun p hp => lt_irrefl _ hp.2
  -- Without a conflict nothing is eliminated; with one the loop runs until none is left.
  by_cases hnil : classifyConflictPairs proposals = []
  · have hall : uneliminated proposals = proposals := by
      unfold uneliminated resolveAllGovernanceConflicts
      simp only [hnil, List.isEmpty_nil, if_true]
      split_ifs <;> rfl
    rw [hall]
    refine ⟨.done _, ?_⟩
    intro p hp q hq hbeats
    have hne : p ≠ q := fun heq => hirrefl q (heq ▸ hbeats)
    rw [Beats, conflicts_eq_false hnil hp hq hne] at hbeats
    cases hbeats.1
  · have hlen : proposals.length ≠ 0 ∧ proposals.length ≠ 1 := by
      constructor
      · intro hzero
        rw [List.eq_nil_of_length_eq_zero hzero] at hnil
        exact hnil rfl
      · intro hone
        obtain ⟨p, rfl⟩ := List.length_eq_one_iff.mp hone
        exact hnil rfl
    obtain ⟨hspec, hdone⟩ := resolveLoop_spec proposals.length proposals hids
      (leaves_ne_of_not_freezes hnodup h)
    have hleft : ∀ p, p ∈ uneliminated proposals ↔
        p ∈ (resolveLoop proposals.length proposals).2 := by
      intro p
      have hempty : proposals.isEmpty = false := by
        cases proposals with
        | nil => exact absurd rfl hlen.1
        | cons => rfl
      have hpairs : (classifyConflictPairs proposals).isEmpty = false := by
        rwa [List.isEmpty_eq_false_iff]
      unfold freezes at h
      unfold uneliminated resolveAllGovernanceConflicts
      simp only [hempty, hlen.2, hpairs, h, Bool.false_eq_true, if_false, List.mem_filter,
        decide_eq_true_eq]
      constructor
      · rintro ⟨hp, hout⟩
        exact (hspec.kept_iff p hp).mpr hout
      · intro hp
        have hin := hspec.eliminates.subset hp
        exact ⟨hin, (hspec.kept_iff p hin).mp hp⟩
    have hset : {p | p ∈ uneliminated proposals} =
        {p | p ∈ (resolveLoop proposals.length proposals).2} := Set.ext hleft
    rw [hset]
    refine ⟨hspec.eliminates, ?_⟩
    intro p hp q hq hbeats
    have hne : p ≠ q := fun heq => hirrefl q (heq ▸ hbeats)
    rw [Beats, conflicts_eq_false (hdone le_rfl) ((hleft p).mp hp) ((hleft q).mp hq) hne] at hbeats
    cases hbeats.1

theorem mem_conflictingIds (id : ProposalId) :
    id ∈ conflictingIds proposals (classifyConflictPairs proposals) ↔
      ∃ pair ∈ classifyConflictPairs proposals, ∃ p, p.proposalId = id ∧
        (proposals[pair.i]? = some p ∨ proposals[pair.j]? = some p) := by
  simp only [conflictingIds, List.mem_dedup, List.mem_insertionSort, List.mem_filterMap,
    List.mem_flatMap, List.mem_cons, List.not_mem_nil, or_false, Option.map_eq_some_iff]
  constructor
  · rintro ⟨k, ⟨pair, hmem, hk⟩, p, hp, rfl⟩
    rcases hk with rfl | rfl
    · exact ⟨pair, hmem, p, rfl, Or.inl hp⟩
    · exact ⟨pair, hmem, p, rfl, Or.inr hp⟩
  · rintro ⟨pair, hmem, p, rfl, hp | hp⟩
    · exact ⟨pair.i, ⟨pair, hmem, Or.inl rfl⟩, p, hp, rfl⟩
    · exact ⟨pair.j, ⟨pair, hmem, Or.inr rfl⟩, p, hp, rfl⟩

/-- A freeze takes every proposal that conflicts with another. -/
theorem mem_uneliminated_of_freezes (hids : (proposals.map (·.proposalId)).Nodup)
    (h : freezes proposals = true) (p : GovernanceProposalSnapshot) :
    p ∈ uneliminated proposals ↔
      p ∈ proposals ∧ ∀ q ∈ proposals, p ≠ q → p.conflicts q = false := by
  have hnodup : proposals.Nodup := hids.of_map _
  -- A freeze names two proposals, so none of the short cuts is taken.
  obtain ⟨a, ha, b, hb, hab, -⟩ := (freezes_iff hnodup).mp h
  have hempty : proposals.isEmpty = false := by
    rw [List.isEmpty_eq_false_iff]
    exact List.ne_nil_of_mem ha
  have hlen : proposals.length ≠ 1 := by
    intro hone
    obtain ⟨c, rfl⟩ := List.length_eq_one_iff.mp hone
    rw [List.mem_singleton] at ha hb
    exact hab (ha.trans hb.symm)
  have hpairs : (classifyConflictPairs proposals).isEmpty = false := by
    rw [List.isEmpty_eq_false_iff]
    intro hnil
    simp [freezes, hnil] at h
  unfold freezes at h
  unfold uneliminated resolveAllGovernanceConflicts
  simp only [hempty, hlen, hpairs, h, Bool.false_eq_true, if_false, if_true, List.mem_filter,
    decide_eq_true_eq, List.flatMap_cons, List.flatMap_nil, List.append_nil,
    ConflictResolutionStrategy.eliminated, mem_conflictingIds]
  constructor
  · rintro ⟨hp, hout⟩
    refine ⟨hp, ?_⟩
    intro q hq hne
    by_contra hconf
    obtain ⟨pair, hmem, -, hat⟩ := exists_classified hp hq hne (by simpa using hconf)
    rcases hat with ⟨hi, -⟩ | ⟨-, hj⟩
    · exact hout ⟨pair, hmem, p, rfl, Or.inl hi⟩
    · exact hout ⟨pair, hmem, p, rfl, Or.inr hj⟩
  · rintro ⟨hp, hfree⟩
    refine ⟨hp, ?_⟩
    rintro ⟨pair, hmem, c, hid, hat⟩
    obtain ⟨x, y, hlt, hx, hy, hconf, -⟩ := (mem_classifyConflictPairs pair).mp hmem
    have hxy := ne_of_getElem? hnodup hlt hx hy
    have hxmem := List.mem_of_getElem? hx
    have hymem := List.mem_of_getElem? hy
    rcases hat with hat | hat
    · rw [hx, Option.some.injEq] at hat
      subst hat
      rw [← List.inj_on_of_nodup_map hids hxmem hp hid] at hfree
      rw [hfree y hymem hxy] at hconf
      cases hconf
    · rw [hy, Option.some.injEq] at hat
      subst hat
      rw [← List.inj_on_of_nodup_map hids hymem hp hid] at hfree
      rw [conflicts_comm, hfree x hxmem hxy.symm] at hconf
      cases hconf

theorem freezes_perm {other : List GovernanceProposalSnapshot} (hperm : other.Perm proposals)
    (hnodup : proposals.Nodup) : freezes other = freezes proposals := by
  rw [Bool.eq_iff_iff, freezes_iff (hperm.nodup_iff.mpr hnodup), freezes_iff hnodup]
  simp only [hperm.mem_iff]

theorem scan_isKept {sorted : List GovernanceProposalSnapshot} (hnodup : sorted.Nodup)
    (hsorted : sorted.Pairwise (fun p q => p.leafIndex ≤ q.leafIndex))
    (hleaves : ∀ p ∈ sorted, ∀ q ∈ sorted, p ≠ q → p.conflicts q = true →
      p.leafIndex ≠ q.leafIndex) :
    IsKept Beats {p | p ∈ sorted} {p | p ∈ sorted.foldl (fun kept p =>
      if kept.any (fun q => q.conflicts p) then kept else kept ++ [p]) []} := by
  -- By the last proposal: what it loses to is kept already, as it is earlier in the log.
  induction sorted using List.reverseRecOn with
  | nil => simp [IsKept]
  | append_singleton sorted x ih =>
    rw [List.nodup_append] at hnodup
    rw [List.pairwise_append] at hsorted
    have hih := ih hnodup.1 hsorted.1
      (fun p hp q hq => hleaves p (List.mem_append_left _ hp) q (List.mem_append_left _ hq))
    have hnew : ∀ p ∈ sorted, p ≠ x := fun p hp => hnodup.2.2 p hp x (by simp)
    have hlate : ∀ p ∈ sorted, p.leafIndex ≤ x.leafIndex := fun p hp => hsorted.2.2 p hp x (by simp)
    rw [List.foldl_append, List.foldl_cons, List.foldl_nil]
    set kept := sorted.foldl (fun kept p =>
      if kept.any (fun q => q.conflicts p) then kept else kept ++ [p]) [] with hkept
    have hsub : ∀ p ∈ kept, p ∈ sorted := fun p hp => ((hih p).mp hp).1
    by_cases hany : kept.any (fun q => q.conflicts x) = true
    · -- A kept proposal conflicts with the new one, and it is earlier in the log.
      rw [if_pos hany]
      obtain ⟨k, hk, hconf⟩ := List.any_eq_true.mp hany
      have hks := hsub k hk
      have hleaf : k.leafIndex ≠ x.leafIndex :=
        hleaves k (List.mem_append_left _ hks) x (by simp) (hnew k hks) hconf
      have hbeats : Beats k x := ⟨hconf, lt_of_le_of_ne (hlate k hks) hleaf⟩
      intro a
      constructor
      · intro ha
        exact ⟨List.mem_append_left _ (hsub a ha), ((hih a).mp ha).2⟩
      · rintro ⟨ha, hfree⟩
        rcases List.mem_append.mp ha with ha | ha
        · exact (hih a).mpr ⟨ha, hfree⟩
        · rw [List.mem_singleton.mp ha] at hfree
          exact absurd hbeats (hfree k hk)
    · rw [if_neg hany]
      have hnone : ∀ k ∈ kept, ¬ Beats k x := by
        intro k hk hbeats
        exact hany (List.any_eq_true.mpr ⟨k, hk, hbeats.1⟩)
      intro a
      simp only [Set.mem_ofPred_eq, List.mem_append, List.mem_singleton]
      constructor
      · rintro (ha | rfl)
        · refine ⟨Or.inl (hsub a ha), ?_⟩
          rintro b (hb | rfl)
          · exact ((hih a).mp ha).2 b hb
          · intro hbeats
            exact absurd hbeats.2 (not_lt_of_ge (hlate a (hsub a ha)))
        · refine ⟨Or.inr rfl, ?_⟩
          rintro b (hb | rfl)
          · exact hnone b hb
          · exact fun hbeats => lt_irrefl _ hbeats.2
      · rintro ⟨ha | rfl, hfree⟩
        · exact Or.inl ((hih a).mpr ⟨ha, fun b hb => hfree b (Or.inl hb)⟩)
        · exact Or.inr rfl

theorem keptInLogOrder_isKept (hnodup : proposals.Nodup) (h : freezes proposals = false) :
    IsKept Beats {p | p ∈ proposals} {p | p ∈ keptInLogOrder proposals} := by
  have hperm := List.perm_insertionSort
    (fun p q : GovernanceProposalSnapshot => p.leafIndex ≤ q.leafIndex) proposals
  have hmem : {p | p ∈ proposals.insertionSort (fun p q => p.leafIndex ≤ q.leafIndex)} =
      {p | p ∈ proposals} := Set.ext (fun p => hperm.mem_iff)
  rw [← hmem]
  apply scan_isKept (hperm.nodup_iff.mpr hnodup)
  · exact List.pairwise_insertionSort _ _
  · intro p hp q hq
    exact leaves_ne_of_not_freezes hnodup h p (hperm.mem_iff.mp hp) q (hperm.mem_iff.mp hq)

end Left

/-- What members that hold the same proposals agree on. -/
structure Converges (proposals : List GovernanceProposalSnapshot) : Prop where
  order_free : ∀ other, other.Perm proposals →
    ∀ p, p ∈ uneliminated other ↔ p ∈ uneliminated proposals
  log_order : freezes proposals = false →
    ∀ p, p ∈ uneliminated proposals ↔ p ∈ keptInLogOrder proposals
  eliminated_by_left : freezes proposals = false → ∀ p ∈ proposals, p ∉ uneliminated proposals →
    ∃ q ∈ uneliminated proposals, q.leafIndex < p.leafIndex ∧ q.conflicts p = true

/-- No proposal has only eliminated ones against it: each that conflicts with an earlier
proposal conflicts with an earlier one that no earlier one conflicts with. -/
def LogOrderGrounded (proposals : List GovernanceProposalSnapshot) : Prop :=
  ∀ p ∈ proposals, (∃ q ∈ proposals, q.leafIndex < p.leafIndex ∧ q.conflicts p = true) →
    ∃ q ∈ proposals, q.leafIndex < p.leafIndex ∧ q.conflicts p = true ∧
      ∀ r ∈ proposals, r.leafIndex < q.leafIndex → r.conflicts q = false

section Convergence
variable {proposals : List GovernanceProposalSnapshot}

theorem grounded_iff : LogOrderGrounded proposals ↔ Grounded Beats {p | p ∈ proposals} := by
  have hfree : ∀ q r : GovernanceProposalSnapshot,
      (r.leafIndex < q.leafIndex → r.conflicts q = false) ↔ ¬ Beats r q := by
    intro q r
    unfold Beats
    cases r.conflicts q <;> simp
  constructor
  · rintro h p hp ⟨q, hq, hbeats⟩
    obtain ⟨c, hc, hlt, hconf, hclear⟩ := h p hp ⟨q, hq, hbeats.2, hbeats.1⟩
    exact ⟨c, ⟨hc, fun r hr => (hfree c r).mp (hclear r hr)⟩, hconf, hlt⟩
  · rintro h p hp ⟨q, hq, hlt, hconf⟩
    obtain ⟨c, hc, hbeats⟩ := h p hp ⟨q, hq, hconf, hlt⟩
    exact ⟨c, hc.1, hbeats.2, hbeats.1, fun r hr => (hfree c r).mpr (hc.2 r hr)⟩

/-- In a list that starts with two conflicting proposals the first round drops the later. -/
theorem not_mem_uneliminated_of_first {p q : GovernanceProposalSnapshot}
    {rest : List GovernanceProposalSnapshot} (hconf : p.conflicts q = true)
    (hlt : p.leafIndex < q.leafIndex) (h : freezes (p :: q :: rest) = false) :
    q ∉ uneliminated (p :: q :: rest) := by
  have hhead : (classifyConflictPairs (p :: q :: rest)).head? = some ⟨0, 1, pairKind p q⟩ := by
    simp [classifyConflictPairs, classifyFrom, List.zipIdx_cons, hconf]
  have hpairs : (classifyConflictPairs (p :: q :: rest)).isEmpty = false := by
    cases hc : classifyConflictPairs (p :: q :: rest) with
    | nil => simp [hc] at hhead
    | cons => rfl
  obtain ⟨more, hloop⟩ : ∃ more, (resolveLoop (p :: q :: rest).length (p :: q :: rest)).1 =
      .merkleOrdered p.proposalId q.proposalId :: more := by
    rw [List.length_cons, resolveLoop, hhead]
    simp only [List.getElem?_cons_zero, List.getElem?_cons_succ, hlt, if_true]
    exact ⟨_, rfl⟩
  have hresult : resolveAllGovernanceConflicts (p :: q :: rest) =
      .ok (.merkleOrdered p.proposalId q.proposalId :: more) := by
    have hlen : (p :: q :: rest).length ≠ 1 := by simp
    unfold freezes at h
    unfold resolveAllGovernanceConflicts
    simp only [List.isEmpty_cons, Bool.false_eq_true, if_false, hlen, hpairs, h, hloop]
  unfold uneliminated
  rw [hresult]
  intro hmem
  have hout := (List.mem_filter.mp hmem).2
  simp [ConflictResolutionStrategy.eliminated] at hout

/-- The resolution converges exactly where the log order is grounded, or the context
freezes. -/
theorem converges_iff (hids : (proposals.map (·.proposalId)).Nodup) :
    Converges proposals ↔ freezes proposals = true ∨ LogOrderGrounded proposals := by
  have hnodup : proposals.Nodup := hids.of_map _
  have hpermIds : ∀ {other : List GovernanceProposalSnapshot}, other.Perm proposals →
      (other.map (·.proposalId)).Nodup := fun hperm => (hperm.map _).nodup_iff.mpr hids
  cases hfreeze : freezes proposals with
  | true =>
    simp only [true_or, iff_true]
    refine ⟨?_, by simp [hfreeze], by simp [hfreeze]⟩
    intro other hperm p
    have hother : freezes other = true := (freezes_perm hperm hnodup).trans hfreeze
    rw [mem_uneliminated_of_freezes (hpermIds hperm) hother, mem_uneliminated_of_freezes hids hfreeze]
    simp only [hperm.mem_iff]
  | false =>
    have hkept := keptInLogOrder_isKept hnodup hfreeze
    simp only [Bool.false_eq_true, false_or]
    rw [grounded_iff]
    constructor
    · intro h
      -- A kept proposal with an earlier one against it would fall in an order that has
      -- these two first.
      apply hkept.grounded
      intro q hq p hp hbeats
      have hqmem : q ∈ proposals := ((hkept q).mp hq).1
      have hne : q ≠ p := by
        rintro rfl
        exact lt_irrefl _ hbeats.2
      have hperm : (p :: q :: (proposals.erase p).erase q).Perm proposals := by
        have hq' : q ∈ proposals.erase p := (List.mem_erase_of_ne hne).mpr hqmem
        exact ((List.perm_cons_erase hq').symm.cons p).trans (List.perm_cons_erase hp).symm
      have hother : freezes (p :: q :: (proposals.erase p).erase q) = false :=
        (freezes_perm hperm hnodup).trans hfreeze
      have hout := not_mem_uneliminated_of_first hbeats.1 hbeats.2 hother
      rw [h.order_free _ hperm, h.log_order hfreeze] at hout
      exact hout hq
    · intro hgrounded
      have hleft : ∀ {other : List GovernanceProposalSnapshot}, other.Perm proposals →
          ∀ p, p ∈ uneliminated other ↔ Unbeaten Beats {p | p ∈ proposals} p := by
        intro other hperm p
        have hset : {p | p ∈ other} = {p | p ∈ proposals} := Set.ext (fun _ => hperm.mem_iff)
        obtain ⟨hrun, hdone⟩ := uneliminated_of_not_freezes (hpermIds hperm)
          ((freezes_perm hperm hnodup).trans hfreeze)
        rw [hset] at hrun
        exact hgrounded.eliminates_iff hrun hdone p
      refine ⟨?_, ?_, ?_⟩
      · intro other hperm p
        rw [hleft hperm, hleft (List.Perm.refl _)]
      · intro _ p
        rw [hleft (List.Perm.refl _)]
        exact (hgrounded.kept_iff hkept p).symm
      · intro _ p hp hout
        rw [hleft (List.Perm.refl _)] at hout
        have hbeaten : ∃ b ∈ {p | p ∈ proposals}, Beats b p := by
          by_contra hnone
          simp only [not_exists, not_and] at hnone
          exact hout ⟨hp, hnone⟩
        obtain ⟨c, hc, hbeats⟩ := hgrounded p hp hbeaten
        exact ⟨c, (hleft (List.Perm.refl _) c).mpr hc, hbeats.2, hbeats.1⟩

end Convergence

/-- Two proposals that give a member the same role, with its removal between them. -/
def firstRoleChange : GovernanceProposalSnapshot :=
  ⟨[0], "did:a", .changeRole "did:m" "editor", 0⟩

def removal : GovernanceProposalSnapshot := ⟨[1], "did:b", .removeMember "did:m", 1⟩

def secondRoleChange : GovernanceProposalSnapshot :=
  ⟨[2], "did:c", .changeRole "did:m" "editor", 2⟩

/-- The removal falls to the first role change in either order, but where it comes first in
the list it has taken the second one with it. -/
theorem role_changes_diverge :
    ([removal, secondRoleChange, firstRoleChange].map (·.proposalId)).Nodup ∧
    freezes [removal, secondRoleChange, firstRoleChange] = false ∧
    uneliminated [removal, secondRoleChange, firstRoleChange] = [firstRoleChange] ∧
    uneliminated [firstRoleChange, removal, secondRoleChange] =
      [firstRoleChange, secondRoleChange] ∧
    ¬ Converges [removal, secondRoleChange, firstRoleChange] := by
  have hone : uneliminated [removal, secondRoleChange, firstRoleChange] = [firstRoleChange] := by
    decide
  have htwo : uneliminated [firstRoleChange, removal, secondRoleChange] =
      [firstRoleChange, secondRoleChange] := by decide
  refine ⟨by decide, by decide, hone, htwo, ?_⟩
  intro h
  have hperm : [firstRoleChange, removal, secondRoleChange].Perm
      [removal, secondRoleChange, firstRoleChange] := by decide
  have hboth := h.order_free _ hperm secondRoleChange
  rw [hone, htwo] at hboth
  exact absurd (hboth.mp (by decide)) (by decide)

/-- Without the second role change every order leaves the first one. -/
theorem removal_converges : Converges [removal, firstRoleChange] := by
  apply (converges_iff (by decide)).mpr
  right
  unfold LogOrderGrounded
  decide

end ScpCore.Governance
