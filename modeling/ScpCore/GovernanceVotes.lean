import ScpCore.GovernanceTick

/-! No proposal is approved without the approvals its model asks for: what every call on an
engine preserves, and the ticks under which a whole run preserves it. -/

namespace ScpCore.Governance

variable {Action Key : Type}

/-- The votes of `voters` among `votes`. -/
def counted (voters : List Did) (votes : List SignedVote) : ℕ :=
  (votes.filter (·.voterDid ∈ voters)).length

/-- The approvals that the model asks for, counting only the votes of `voters`. -/
structure Quorum (model : VotingModel) (voters : List Did) (now : ℕ)
    (p : GovernanceProposal Action) : Prop where
  approval : p.approvals ≠ []
  threshold : ∀ t, model = .threshold t → t ≤ counted voters p.approvals
  unanimity : model = .unanimity →
    (∀ d ∈ voters, ∃ v ∈ p.approvals, v.voterDid = d) ∧ p.rejections = []
  majority : ∀ bps, model = .majority bps →
    voters.length < 2*counted voters p.approvals ∨
      (p.votingDeadline ≤ now ∧ counted voters p.rejections < counted voters p.approvals ∧
        bps*voters.length ≤
          (counted voters p.approvals+counted voters p.rejections)*10000)

theorem counted_eq {voters : List Did} {votes : List SignedVote}
    (h : ∀ v ∈ votes, v.voterDid ∈ voters) : counted voters votes = votes.length := by
  rw [counted, List.filter_eq_self.mpr fun v hv => by simpa using h v hv]

/-- The constructor refuses a threshold of 0 or past the number of signers. -/
def VotingModel.WellFormed : VotingModel → Prop
  | threshold t => t ≠ 0 ∧ t < 2^32
  | _ => True

/-- The votes come from distinct voters. -/
def GovernanceProposal.Distinct (p : GovernanceProposal Action) : Prop :=
  (p.votes.map (·.voterDid)).Nodup

def GovernanceProposal.VotesFrom (p : GovernanceProposal Action) (voters : List Did) : Prop :=
  ∀ v ∈ p.votes, v.voterDid ∈ voters

theorem votes_length_le {p : GovernanceProposal Action} {voters : List Did}
    (hdistinct : p.Distinct) (hfrom : p.VotesFrom voters) :
    p.approvals.length+p.rejections.length ≤ voters.length := by
  have hsub : p.votes.map (·.voterDid) ⊆ voters := by
    intro d hd
    obtain ⟨v, hv, rfl⟩ := List.mem_map.mp hd
    exact hfrom v hv
  have hle := (List.subperm_of_subset hdistinct hsub).length_le
  rwa [List.length_map, GovernanceProposal.votes, List.length_append] at hle

/-- As many approvals as voters are the approvals of all of them. -/
theorem unanimous_of_length_eq {p : GovernanceProposal Action} {voters : List Did}
    (hdistinct : p.Distinct) (hfrom : p.VotesFrom voters)
    (hlength : p.approvals.length = voters.length) :
    (∀ d ∈ voters, ∃ v ∈ p.approvals, v.voterDid = d) ∧ p.rejections = [] := by
  have hle := votes_length_le hdistinct hfrom
  have hnil : p.rejections = [] := List.eq_nil_of_length_eq_zero (by omega)
  have hvotes : p.votes = p.approvals := by
    rw [GovernanceProposal.votes, hnil, List.append_nil]
  have hsub : p.approvals.map (·.voterDid) ⊆ voters := by
    intro d hd
    obtain ⟨v, hv, rfl⟩ := List.mem_map.mp hd
    exact hfrom v (hvotes ▸ hv)
  have hnodup : (p.approvals.map (·.voterDid)).Nodup := by
    rw [← hvotes]
    exact hdistinct
  have hperm := (List.subperm_of_subset hnodup hsub).perm_of_length_le (by simp [hlength])
  refine ⟨fun d hd => ?_, hnil⟩
  exact List.mem_map.mp (hperm.symm.subset hd)

theorem threshold_approved {t : ℕ} {voters : List Did} {now : ℕ}
    {p : GovernanceProposal Action}
    (h : evaluateResolution (.threshold t) voters p now = some .approved) :
    t ≤ p.approvals.length := by
  simp only [evaluateResolution] at h
  by_cases hreached : t ≤ u32 p.approvals.length
  · exact hreached.trans (Nat.mod_le _ _)
  · rw [if_neg hreached] at h
    split_ifs at h <;> simp at h

theorem unanimity_approved {voters : List Did} {now : ℕ} {p : GovernanceProposal Action}
    (h : evaluateResolution .unanimity voters p now = some .approved) :
    p.approvals.length = voters.length := by
  simp only [evaluateResolution] at h
  by_cases hlength : p.approvals.length = voters.length
  · exact hlength
  · rw [if_neg hlength] at h
    split at h
    · simp at h
    · split_ifs at h
      simp at h

theorem majority_approved {bps : ℕ} {voters : List Did} {now : ℕ}
    {p : GovernanceProposal Action}
    (h : evaluateResolution (.majority bps) voters p now = some .approved) :
    voters.length < 2*p.approvals.length ∨
      (p.votingDeadline ≤ now ∧ p.rejections.length < p.approvals.length ∧
        bps*voters.length ≤ (p.approvals.length+p.rejections.length)*10000) := by
  simp only [evaluateResolution] at h
  by_cases hmost : voters.length < p.approvals.length*2
  · exact .inl (by omega)
  rw [if_neg hmost] at h
  by_cases hmany : (voters.length+1)/2 ≤ p.rejections.length
  · rw [if_pos hmany] at h
    simp at h
  rw [if_neg hmany] at h
  -- With nobody eligible the rejections would already be enough, so the division is by more than 0.
  have hpos : 0 < voters.length := by omega
  split_ifs at h with hdeadline hfew hmore
  · simp at h
  · have hbps := (Nat.le_div_iff_mul_le hpos).mp (not_lt.mp hfew)
    exact .inr ⟨hdeadline, hmore, hbps.trans (min_le_left _ _)⟩
  · simp at h

/-- An approving tally over voters who have cast all the votes it counts. The voters may
shrink after a unanimous one. -/
theorem quorum_of_approved {model : VotingModel} {voters after : List Did} {now : ℕ}
    {p : GovernanceProposal Action} (hmodel : model.WellFormed) (hdistinct : p.Distinct)
    (hfrom : p.VotesFrom voters) (hvoters : model = .unanimity → voters ≠ [])
    (hafter : after ⊆ voters) (hsame : model ≠ .unanimity → after = voters)
    (h : evaluateResolution model voters p now = some .approved) : Quorum model after now p := by
  have happrovals : ∀ v ∈ p.approvals, v.voterDid ∈ voters :=
    fun v hv => hfrom v (List.mem_append_left _ hv)
  have hrejections : ∀ v ∈ p.rejections, v.voterDid ∈ voters :=
    fun v hv => hfrom v (List.mem_append_right _ hv)
  cases model with
  | threshold t =>
    have hle := threshold_approved h
    have ht : t ≠ 0 := hmodel.1
    refine ⟨?_, ?_, by simp, by simp⟩
    · apply List.ne_nil_of_length_pos
      omega
    · intro t' ht'
      cases ht'
      rw [hsame (by simp), counted_eq happrovals]
      exact hle
  | unanimity =>
    have hlength := unanimity_approved h
    obtain ⟨hall, hnil⟩ := unanimous_of_length_eq hdistinct hfrom hlength
    refine ⟨?_, by simp, fun _ => ⟨fun d hd => hall d (hafter hd), hnil⟩, by simp⟩
    apply List.ne_nil_of_length_pos
    rw [hlength]
    exact List.length_pos_of_ne_nil (hvoters rfl)
  | majority bps =>
    have hmost := majority_approved h
    rw [hsame (by simp)]
    refine ⟨?_, by simp, by simp, ?_⟩
    · apply List.ne_nil_of_length_pos
      omega
    · intro bps' hbps
      cases hbps
      rw [counted_eq happrovals, counted_eq hrejections]
      exact hmost

variable (S : VoteScheme Action Key)

/-- Votes of distinct voters, each with a verified signature over this proposal. -/
structure VotesSound (keyResolver : Did → Option Key) (id : ProposalId)
    (p : GovernanceProposal Action) : Prop where
  distinct : p.Distinct
  approvals : ∀ v ∈ p.approvals, v.vote = .approve ∧ Verified S keyResolver id v
  rejections : ∀ v ∈ p.rejections, v.vote = .reject ∧ Verified S keyResolver id v

namespace Engine

/-- What holds of a proposal for as long as it is pending. -/
structure Open (e : Engine Action Key) (p : GovernanceProposal Action) : Prop where
  votesFrom : p.VotesFrom e.voters
  voters : e.model = .unanimity → e.voters ≠ []
  short : ∀ t, e.model = .threshold t → p.approvals.length < t

structure Sound (e : Engine Action Key) : Prop where
  model : e.model.WellFormed
  votes : ∀ id p, e.proposals id = some p → VotesSound S e.keyResolver id p
  opened : ∀ id p, e.proposals id = some p → p.status = .pending → e.Open p

/-- A proposal as one call may leave it in the engine. -/
structure Good (e : Engine Action Key) (now : ℕ) (id : ProposalId)
    (p : GovernanceProposal Action) : Prop where
  votes : VotesSound S e.keyResolver id p
  opened : p.status = .pending → e.Open p
  quorum : p.status = .approved → Quorum e.model e.voters now p

/-- One call: what it decides is decided for good, and with a quorum. -/
structure SafeStep (now : ℕ) (e e' : Engine Action Key) : Prop where
  sound : e'.Sound S
  final : ∀ id p, e.proposals id = some p → p.status ≠ .pending → e'.proposals id = some p
  quorum : ∀ id p, e'.proposals id = some p → p.status = .approved →
    (∀ q, e.proposals id = some q → q.status = .pending) →
    Quorum e'.model e'.voters now p

variable {S} {e : Engine Action Key} {now : ℕ}

theorem SafeStep.refl (h : e.Sound S) : SafeStep S now e e := by
  refine ⟨h, fun _ _ hp _ => hp, ?_⟩
  intro id p hp happroved hpending
  rw [hpending p hp] at happroved
  cases happroved

theorem Open.set {p q : GovernanceProposal Action} (h : e.Open p) (id : ProposalId) :
    (e.set id q).Open p :=
  ⟨h.votesFrom, h.voters, h.short⟩

/-- A call that sets one proposal, which was pending or not there. -/
theorem SafeStep.set (h : e.Sound S) {id : ProposalId} {p : GovernanceProposal Action}
    (hold : ∀ q, e.proposals id = some q → q.status = .pending) (hgood : Good S e now id p) :
    SafeStep S now e (e.set id p) := by
  have hself : (e.set id p).proposals id = some p := by
    simp [Engine.set]
  have hcases : ∀ id' q, (e.set id p).proposals id' = some q →
      id' = id ∧ q = p ∨ e.proposals id' = some q := by
    intro id' q hq
    by_cases hid : id' = id
    · subst hid
      rw [hself] at hq
      exact .inl ⟨rfl, (Option.some.inj hq).symm⟩
    · rw [set_proposals_ne hid] at hq
      exact .inr hq
  refine ⟨⟨h.model, ?_, ?_⟩, ?_, ?_⟩
  · intro id' q hq
    rcases hcases id' q hq with ⟨rfl, rfl⟩ | hq
    · exact hgood.votes
    · exact h.votes id' q hq
  · intro id' q hq hpending
    rcases hcases id' q hq with ⟨rfl, rfl⟩ | hq
    · exact (hgood.opened hpending).set id'
    · exact (h.opened id' q hq hpending).set id
  · intro id' q hq hterminal
    have hid : id' ≠ id := by
      rintro rfl
      exact hterminal (hold q hq)
    rw [set_proposals_ne hid]
    exact hq
  · intro id' q hq happroved hpending
    rcases hcases id' q hq with ⟨rfl, rfl⟩ | hq
    · exact hgood.quorum happroved
    · rw [hpending q hq] at happroved
      cases happroved

/-- The proposal that a tally leaves, where its votes are those of the voters. -/
theorem good_settled (hmodel : e.model.WellFormed) {id : ProposalId}
    {p : GovernanceProposal Action} (hvotes : VotesSound S e.keyResolver id p)
    (hfrom : p.VotesFrom e.voters) (hvoters : e.model = .unanimity → e.voters ≠ [])
    (hshort : ∀ t, e.model = .threshold t → p.approvals.length ≤ t) :
    Good S e now id (settled p [] (evaluateResolution e.model e.voters p now)) := by
  have hwithout : p.without [] = p := p.without_nil
  refine ⟨?_, ?_, ?_⟩
  · refine ⟨?_, ?_, ?_⟩ <;> simp only [settled, hwithout]
    · exact hvotes.distinct
    · exact hvotes.approvals
    · exact hvotes.rejections
  -- A proposal stays pending only when the evaluation resolves nothing.
  · intro hpending
    have hnone : evaluateResolution e.model e.voters p now = none := by
      cases heval : evaluateResolution e.model e.voters p now with
      | none => rfl
      | some s =>
        rw [heval] at hpending
        exact absurd hpending (evaluateResolution_ne_pending heval)
    refine ⟨?_, hvoters, ?_⟩
    · intro v hv
      apply hfrom v
      simpa only [GovernanceProposal.votes, settled, hwithout] using hv
    · intro t ht
      have hle := hshort t ht
      rw [ht] at hmodel
      have hlt : p.approvals.length < 2^32 := lt_of_le_of_lt hle hmodel.2
      simp only [settled, hwithout]
      by_contra hreached
      rw [ht, evaluateResolution, u32, Nat.mod_eq_of_lt hlt, if_pos (not_lt.mp hreached)] at hnone
      cases hnone
  · intro happroved
    cases heval : evaluateResolution e.model e.voters p now with
    | none =>
      rw [heval] at happroved
      cases happroved
    | some s =>
      rw [heval] at happroved
      have hs : s = .approved := happroved
      rw [hs] at heval
      have hquorum := quorum_of_approved hmodel hvotes.distinct hfrom hvoters
        (List.Subset.refl _) (fun _ => rfl) heval
      simp only [settled, hwithout]
      exact ⟨hquorum.approval, hquorum.threshold, hquorum.unanimity, hquorum.majority⟩

theorem resolveProposal_safe (h : e.Sound S) {id : ProposalId} {result : Resolution Action}
    {e' : Engine Action Key} (hcall : e.resolveProposal id now = .ok (result, e')) :
    SafeStep S now e e' := by
  cases hp : e.proposals id with
  | none =>
    rw [resolveProposal, get, hp] at hcall
    simp [okOr] at hcall
  | some p =>
    by_cases hstatus : p.status = .pending
    · obtain ⟨events, hresolve⟩ := e.resolveProposal_pending hp hstatus now
      rw [hresolve] at hcall
      cases hcall
      have hopen := h.opened id p hp hstatus
      apply SafeStep.set h
      · intro q hq
        rw [hp] at hq
        cases hq
        exact hstatus
      · exact good_settled h.model (h.votes id p hp) hopen.votesFrom hopen.voters
          fun t ht => (hopen.short t ht).le
    · rw [e.resolveProposal_terminal hp hstatus] at hcall
      cases hcall
      exact SafeStep.refl h

theorem push_votes_perm (p : GovernanceProposal Action) (vote : SignedVote) (ty : VoteType) :
    (p.push vote ty).votes.Perm (vote :: p.votes) := by
  cases ty with
  | approve =>
    simp only [GovernanceProposal.push, GovernanceProposal.votes, List.append_assoc]
    exact List.perm_middle
  | reject =>
    simp only [GovernanceProposal.push, GovernanceProposal.votes, ← List.append_assoc]
    exact List.perm_append_comm

theorem push_sound {keyResolver : Did → Option Key} {id : ProposalId}
    {p : GovernanceProposal Action} {vote : SignedVote} (hp : VotesSound S keyResolver id p)
    (hverified : Verified S keyResolver id vote) (hfresh : p.hasVoted vote.voterDid = false) :
    VotesSound S keyResolver id (p.push vote vote.vote) := by
  refine ⟨?_, ?_, ?_⟩
  · rw [GovernanceProposal.Distinct, ((push_votes_perm p vote vote.vote).map _).nodup_iff,
      List.map_cons, List.nodup_cons]
    refine ⟨fun hmem => ?_, hp.distinct⟩
    obtain ⟨v, hv, heq⟩ := List.mem_map.mp hmem
    have hvoted := (p.hasVoted_iff vote.voterDid).mpr ⟨v, hv, heq⟩
    rw [hfresh] at hvoted
    cases hvoted
  · intro v hv
    cases hvote : vote.vote with
    | approve =>
      rw [hvote] at hv
      rcases List.mem_append.mp hv with hv | hv
      · exact hp.approvals v hv
      · rw [List.mem_singleton.mp hv]
        exact ⟨hvote, hverified⟩
    | reject =>
      rw [hvote] at hv
      exact hp.approvals v hv
  · intro v hv
    cases hvote : vote.vote with
    | approve =>
      rw [hvote] at hv
      exact hp.rejections v hv
    | reject =>
      rw [hvote] at hv
      rcases List.mem_append.mp hv with hv | hv
      · exact hp.rejections v hv
      · rw [List.mem_singleton.mp hv]
        exact ⟨hvote, hverified⟩

theorem push_approvals_length_le (p : GovernanceProposal Action) (vote : SignedVote)
    (ty : VoteType) : (p.push vote ty).approvals.length ≤ p.approvals.length+1 := by
  cases ty with
  | approve => simp [GovernanceProposal.push]
  | reject => simp [GovernanceProposal.push]

@[simp] theorem push_status (p : GovernanceProposal Action) (vote : SignedVote) (ty : VoteType) :
    (p.push vote ty).status = p.status := by
  cases ty <;> rfl

theorem isVoter_iff (did : Did) : e.isVoter did = true ↔ did ∈ e.voters := by
  simp [isVoter]

/-- What the guards of a vote let through. -/
theorem guardVote_ok {id : ProposalId} {voter : Did} {context : GovernanceContext}
    {outcome : PrecheckOutcome Action Key} (h : e.guardVote id voter context = .ok outcome) :
    voter ∈ e.voters ∧ ∃ p, e.proposals id = some p ∧ p.status = .pending ∧
      ((outcome = .proceed ∧ p.hasVoted voter = false) ∨
        ∃ result e', outcome = .resolved result e' ∧
          e.resolveProposal id context.now = .ok (result, e')) := by
  simp only [guardVote, bind_ok_iff, exists_unit_iff, require_ok_iff, get, okOr_ok_iff,
    isVoter_iff, ProposalStatus.isPending_iff] at h
  obtain ⟨hvoter, p, hp, hstatus, hmodel⟩ := h
  refine ⟨hvoter, p, hp, hstatus, ?_⟩
  cases hm : e.model with
  | majority bps =>
    simp only [hm] at hmodel
    split_ifs at hmodel with hdeadline
    · simp only [bind_ok_iff, pure_ok_iff] at hmodel
      obtain ⟨⟨result, e'⟩, hresolve, rfl⟩ := hmodel
      exact .inr ⟨result, e', rfl, hresolve⟩
    · simp only [bind_ok_iff, exists_unit_iff, require_ok_iff, pure_ok_iff,
        Bool.not_eq_true'] at hmodel
      exact .inl ⟨hmodel.2.symm, hmodel.1⟩
  | threshold t =>
    simp only [hm, bind_ok_iff, exists_unit_iff, require_ok_iff, pure_ok_iff,
      Bool.not_eq_true'] at hmodel
    exact .inl ⟨hmodel.2.2.symm, hmodel.2.1⟩
  | unanimity =>
    simp only [hm, bind_ok_iff, exists_unit_iff, require_ok_iff, pure_ok_iff,
      Bool.not_eq_true'] at hmodel
    exact .inl ⟨hmodel.2.2.symm, hmodel.2.1⟩

theorem set_set (id : ProposalId) (p q : GovernanceProposal Action) :
    (e.set id p).set id q = e.set id q := by
  simp [Engine.set]

/-- A proposal with sound votes of voters, set and then resolved. -/
theorem set_resolve_safe (h : e.Sound S) {id : ProposalId} {p : GovernanceProposal Action}
    (hold : ∀ q, e.proposals id = some q → q.status = .pending)
    (hvotes : VotesSound S e.keyResolver id p) (hfrom : p.VotesFrom e.voters)
    (hvoters : e.voters ≠ []) (hshort : ∀ t, e.model = .threshold t → p.approvals.length ≤ t)
    (hstatus : p.status = .pending) {result : Resolution Action} {e' : Engine Action Key}
    (hcall : (e.set id p).resolveProposal id now = .ok (result, e')) : SafeStep S now e e' := by
  have hset : (e.set id p).proposals id = some p := by
    simp [Engine.set]
  obtain ⟨events, hresolve⟩ := (e.set id p).resolveProposal_pending hset hstatus now
  rw [hresolve] at hcall
  cases hcall
  rw [set_set]
  exact SafeStep.set h hold (good_settled h.model hvotes hfrom (fun _ => hvoters) hshort)

theorem inlineResolution_quorum (bps now : ℕ) {voters : List Did} {p : GovernanceProposal Action}
    (hdistinct : p.Distinct) (hfrom : p.VotesFrom voters) {ty : VoteType}
    (h : inlineResolution voters.length p ty = some .approved) :
    Quorum (.majority bps) voters now p := by
  have hmodel : (VotingModel.majority bps).WellFormed := trivial
  apply quorum_of_approved hmodel hdistinct hfrom (by simp) (List.Subset.refl _) (fun _ => rfl)
  cases ty with
  | approve =>
    simp only [inlineResolution] at h
    split_ifs at h with hmost
    simp [evaluateResolution, hmost]
  | reject =>
    simp only [inlineResolution] at h
    split_ifs at h
    simp at h

theorem inlineResolution_ne_pending {eligible : ℕ} {p : GovernanceProposal Action}
    {ty : VoteType} {s : ProposalStatus} (h : inlineResolution eligible p ty = some s) :
    s ≠ .pending := by
  cases ty with
  | approve =>
    simp only [inlineResolution] at h
    split_ifs at h
    cases h
    simp
  | reject =>
    simp only [inlineResolution] at h
    split_ifs at h
    cases h
    simp

theorem pushAndResolve_safe (h : e.Sound S) {id : ProposalId} {p : GovernanceProposal Action}
    (hp : e.proposals id = some p) (hstatus : p.status = .pending) {vote : SignedVote}
    (hvoter : vote.voterDid ∈ e.voters) (hfresh : p.hasVoted vote.voterDid = false)
    (hverified : Verified S e.keyResolver id vote) {voter : Did} {context : GovernanceContext}
    {result : Resolution Action} {e' : Engine Action Key}
    (hcall : e.pushAndResolve id voter vote vote.vote context = .ok (result, e')) :
    SafeStep S context.now e e' := by
  have hold : ∀ q, e.proposals id = some q → q.status = .pending := by
    intro q hq
    rw [hp] at hq
    cases hq
    exact hstatus
  have hopen := h.opened id p hp hstatus
  have hvotes := push_sound (h.votes id p hp) hverified hfresh
  have hfrom : (p.push vote vote.vote).VotesFrom e.voters := by
    intro v hv
    rcases List.mem_cons.mp ((push_votes_perm p vote vote.vote).subset hv) with rfl | hv
    · exact hvoter
    · exact hopen.votesFrom v hv
  have hshort : ∀ t, e.model = .threshold t → (p.push vote vote.vote).approvals.length ≤ t :=
    fun t ht => (push_approvals_length_le p vote vote.vote).trans (hopen.short t ht)
  have hpending : (p.push vote vote.vote).status = .pending := by
    rw [push_status, hstatus]
  simp only [pushAndResolve, bind_ok_iff, get, okOr_ok_iff, hp, Option.some.injEq,
    exists_eq_left'] at hcall
  have hresolves {r : Resolution Action × Engine Action Key}
      (hr : (e.set id (p.push vote vote.vote)).resolveProposal id context.now = .ok r) :
      SafeStep S context.now e r.2 :=
    set_resolve_safe h hold hvotes hfrom (List.ne_nil_of_mem hvoter) hshort hpending hr
  -- Only a majority is settled in the call itself; the others go through the resolution.
  cases hm : e.model with
  | majority bps =>
    simp only [hm] at hcall
    cases hinline : inlineResolution e.voters.length (p.push vote vote.vote) vote.vote with
    | none =>
      simp only [hinline, pure_ok_iff, Prod.mk.injEq] at hcall
      obtain ⟨-, rfl⟩ := hcall
      refine SafeStep.set h hold ⟨hvotes, fun _ => ⟨hfrom, by simp [hm], by simp [hm]⟩, ?_⟩
      intro happroved
      rw [hpending] at happroved
      cases happroved
    | some s =>
      simp only [hinline, pure_ok_iff, Prod.mk.injEq] at hcall
      obtain ⟨-, rfl⟩ := hcall
      refine SafeStep.set h hold ⟨⟨hvotes.distinct, hvotes.approvals, hvotes.rejections⟩, ?_, ?_⟩
      · intro hpending'
        exact absurd hpending' (inlineResolution_ne_pending hinline)
      · intro happroved
        have hs : s = .approved := happroved
        rw [hs] at hinline
        have hquorum := inlineResolution_quorum bps context.now hvotes.distinct hfrom hinline
        rw [hm]
        exact ⟨hquorum.approval, hquorum.threshold, hquorum.unanimity, hquorum.majority⟩
  | threshold t =>
    simp only [hm, bind_ok_iff, pure_ok_iff, Prod.mk.injEq] at hcall
    obtain ⟨r, hr, -, rfl⟩ := hcall
    exact hresolves hr
  | unanimity =>
    simp only [hm, bind_ok_iff, pure_ok_iff, Prod.mk.injEq] at hcall
    obtain ⟨r, hr, -, rfl⟩ := hcall
    exact hresolves hr

theorem castSigned_safe (h : e.Sound S) {id : ProposalId} {voter : Did}
    {context : GovernanceContext} {vote : SignedVote} {expected : VoteType}
    {result : Resolution Action} {e' : Engine Action Key}
    (hcall : e.castSigned S id voter context vote expected = .ok (result, e')) :
    SafeStep S context.now e e' := by
  simp only [castSigned, bind_ok_iff] at hcall
  obtain ⟨outcome, hguard, hcall⟩ := hcall
  obtain ⟨hvoter, p, hp, hstatus, hproceed | hresolved⟩ := guardVote_ok hguard
  · obtain ⟨rfl, hfresh⟩ := hproceed
    simp only [bind_ok_iff, exists_unit_iff] at hcall
    obtain ⟨rfl, rfl, hverified⟩ := checkSignedVote_ok S hcall.1
    exact pushAndResolve_safe h hp hstatus hvoter hfresh hverified hcall.2
  · obtain ⟨result', e'', rfl, hresolve⟩ := hresolved
    simp only [pure_ok_iff, Prod.mk.injEq] at hcall
    obtain ⟨-, rfl⟩ := hcall
    exact resolveProposal_safe h hresolve

theorem proposeSigned_safe (h : e.Sound S) {proposer : Did} {action : Action}
    {context : GovernanceContext} {vote : Option SignedVote}
    {result : GovernanceProposal Action × List (GovernanceEvent Action)}
    {e' : Engine Action Key}
    (hcall : e.proposeSigned S proposer action context vote = .ok (result, e')) :
    SafeStep S context.now e e' := by
  simp only [proposeSigned, precheckPropose, bind_ok_iff, exists_unit_iff, require_ok_iff,
    isVoter_iff, decide_eq_true_eq] at hcall
  obtain ⟨id, ⟨hproposer, id', -, hfresh, hid⟩, hsigns, hcall⟩ := hcall
  -- The precheck draws an identifier that no proposal has, and it is the one used.
  have hnone : e.proposals id = none := by
    have hid' : id' = id := by
      split_ifs at hid
      · simp only [bind_ok_iff, pure_ok_iff] at hid
        obtain ⟨_, -, hid⟩ := hid
        exact hid
      · simpa only [bind_ok_iff, exists_unit_iff, pure_ok_iff, true_and] using hid
    rw [← hid']
    exact Option.isNone_iff_eq_none.mp hfresh
  have hold : ∀ q, e.proposals id = some q → q.status = .pending := by
    intro q hq
    rw [hnone] at hq
    cases hq
  have hvoters := List.ne_nil_of_mem hproposer
  cases vote with
  | none =>
    simp only [pure_ok_iff, Prod.mk.injEq] at hcall
    obtain ⟨-, rfl⟩ := hcall
    refine SafeStep.set h hold ⟨⟨?_, by simp, by simp⟩, fun _ => ⟨?_, ?_, ?_⟩, by simp⟩
    · simp [GovernanceProposal.Distinct, GovernanceProposal.votes]
    · simp [GovernanceProposal.VotesFrom, GovernanceProposal.votes]
    · exact fun _ => hvoters
    · -- Only the majority engine takes a proposal without its proposer's vote.
      intro t ht
      simp [ht, VotingModel.proposerSigns] at hsigns
  | some vote =>
    simp only [bind_ok_iff, exists_unit_iff, pure_ok_iff, Prod.mk.injEq] at hcall
    obtain ⟨hcheck, ⟨⟨status, events⟩, e''⟩, hresolve, p, -, -, rfl⟩ := hcall
    obtain ⟨hvoter, hvote, hverified⟩ := checkSignedVote_ok S hcheck
    refine set_resolve_safe h hold ⟨?_, ?_, by simp⟩ ?_ hvoters ?_ rfl hresolve
    · simp [GovernanceProposal.Distinct, GovernanceProposal.votes]
    · simpa using ⟨hvote, hverified⟩
    · simpa [GovernanceProposal.VotesFrom, GovernanceProposal.votes, hvoter] using hproposer
    · intro t ht
      have hmodel := h.model
      rw [ht] at hmodel
      simpa using Nat.one_le_iff_ne_zero.mpr hmodel.1

/-- Dropping votes from a pending proposal. -/
theorem dropped_safe (h : e.Sound S) {id : ProposalId} {p q : GovernanceProposal Action}
    (hp : e.proposals id = some p) (hstatus : p.status = .pending)
    (hsame : q.status = .pending) (happrovals : q.approvals.Sublist p.approvals)
    (hrejections : q.rejections.Sublist p.rejections) : SafeStep S now e (e.set id q) := by
  have hopen := h.opened id p hp hstatus
  have hvotes := h.votes id p hp
  have hsub : q.votes.Sublist p.votes := happrovals.append hrejections
  apply SafeStep.set h
  · intro q' hq'
    rw [hp] at hq'
    cases hq'
    exact hstatus
  · refine ⟨⟨?_, ?_, ?_⟩, fun _ => ⟨?_, hopen.voters, ?_⟩, ?_⟩
    · exact hvotes.distinct.sublist (hsub.map _)
    · exact fun v hv => hvotes.approvals v (happrovals.subset hv)
    · exact fun v hv => hvotes.rejections v (hrejections.subset hv)
    · exact fun v hv => hopen.votesFrom v (hsub.subset hv)
    · exact fun t ht => lt_of_le_of_lt happrovals.length_le (hopen.short t ht)
    · intro happroved
      rw [hsame] at happroved
      cases happroved

theorem withdrawVote_safe (h : e.Sound S) {id : ProposalId} {voter : Did}
    {context : GovernanceContext} {result : Resolution Action} {e' : Engine Action Key}
    (hcall : e.withdrawVote id voter context = .ok (result, e')) :
    SafeStep S now e e' := by
  simp only [withdrawVote, bind_ok_iff, exists_unit_iff, require_ok_iff, get, okOr_ok_iff,
    ProposalStatus.isPending_iff] at hcall
  obtain ⟨-, p, hp, hstatus, hcall⟩ := hcall
  have hwithout : SafeStep S now e (e.set id (p.without [voter])) :=
    dropped_safe h hp hstatus hstatus List.filter_sublist List.filter_sublist
  cases hm : e.model with
  | majority bps =>
    simp only [hm, bind_ok_iff, exists_unit_iff, require_ok_iff, pure_ok_iff,
      Prod.mk.injEq] at hcall
    obtain ⟨-, -, -, rfl⟩ := hcall
    rw [dropFirst]
    split_ifs with happroval
    · exact dropped_safe h hp hstatus hstatus List.eraseP_sublist (List.Sublist.refl _)
    · exact dropped_safe h hp hstatus hstatus (List.Sublist.refl _) List.eraseP_sublist
  | threshold t =>
    simp only [hm, bind_ok_iff, exists_unit_iff, require_ok_iff, pure_ok_iff,
      Prod.mk.injEq] at hcall
    obtain ⟨-, -, -, rfl⟩ := hcall
    exact hwithout
  | unanimity =>
    simp only [hm, bind_ok_iff, exists_unit_iff, require_ok_iff, pure_ok_iff,
      Prod.mk.injEq] at hcall
    obtain ⟨-, -, -, rfl⟩ := hcall
    exact hwithout

theorem invalidateProposal_safe (h : e.Sound S) {id : ProposalId} {reason : String}
    {events : List (GovernanceEvent Action)} {e' : Engine Action Key}
    (hcall : e.invalidateProposal id reason = .ok (events, e')) : SafeStep S now e e' := by
  simp only [invalidateProposal, bind_ok_iff, exists_unit_iff, require_ok_iff, get, okOr_ok_iff,
    ProposalStatus.isPending_iff, pure_ok_iff, Prod.mk.injEq] at hcall
  obtain ⟨p, hp, hstatus, -, rfl⟩ := hcall
  have hvotes := h.votes id p hp
  apply SafeStep.set h
  · intro q hq
    rw [hp] at hq
    cases hq
    exact hstatus
  · exact ⟨⟨hvotes.distinct, hvotes.approvals, hvotes.rejections⟩, by simp, by simp⟩

/-- Every tally by which the tick can approve a proposal, after whatever turns of other
proposals, has a voter left and counts no vote of a removed voter; and unless it is a unanimous
one, all the removals have been made. -/
def FairTick (e : Engine Action Key) (now : ℕ) (departed reset : List Did) : Prop :=
  ∀ id p lost n, e.Stays departed id p → LostBefore e now departed reset id lost →
    Stops e p now (departed ++ reset) lost n (some .approved) →
    remaining e.voters ((departed ++ reset).take (max lost n)) ≠ [] ∧
    (p.without ((departed ++ reset).take n)).VotesFrom
      (remaining e.voters ((departed ++ reset).take (max lost n))) ∧
    (e.model ≠ .unanimity → ∀ d ∈ departed ++ reset,
      d ∉ remaining e.voters ((departed ++ reset).take (max lost n)))

theorem without_sound {keyResolver : Did → Option Key} {id : ProposalId}
    {p : GovernanceProposal Action} (h : VotesSound S keyResolver id p) (gone : List Did) :
    VotesSound S keyResolver id (p.without gone) := by
  have hsub : (p.without gone).votes.Sublist p.votes :=
    List.filter_sublist.append List.filter_sublist
  refine ⟨h.distinct.sublist (hsub.map _), fun v hv => ?_, fun v hv => ?_⟩
  · exact h.approvals v (List.mem_of_mem_filter hv)
  · exact h.rejections v (List.mem_of_mem_filter hv)

theorem VotesSound.withStatus {keyResolver : Did → Option Key} {id : ProposalId}
    {p : GovernanceProposal Action} (h : VotesSound S keyResolver id p) (s : ProposalStatus) :
    VotesSound S keyResolver id { p with status := s } :=
  ⟨h.distinct, h.approvals, h.rejections⟩

theorem Quorum.withStatus {model : VotingModel} {voters : List Did}
    {p : GovernanceProposal Action} (h : Quorum model voters now p) (s : ProposalStatus) :
    Quorum model voters now { p with status := s } :=
  ⟨h.approval, h.threshold, h.unanimity, h.majority⟩

section Tick
variable {e' : Engine Action Key} {departed reset : List Did} {ids : List ProposalId} {k : ℕ}
  (h : e.Sound S) (hids : e.PendingIds ids)
  (htick : Ticked e e e' now departed reset ids 0 k)
include h hids htick

theorem Ticked.votes_after {id : ProposalId} {p' : GovernanceProposal Action}
    (hp' : e'.proposals id = some p') : VotesSound S e'.keyResolver id p' := by
  have hkeys : e'.keyResolver = e.keyResolver := by
    rw [htick.engine]
  rw [hkeys]
  by_cases hid : id ∈ ids
  · obtain ⟨p, hp, hpending⟩ := (hids.2 id).mp hid
    have hvotes := h.votes id p hp
    by_cases hproposer : p.proposerDid ∈ departed
    · rw [htick.departs id hid p hp hproposer] at hp'
      cases hp'
      exact VotesSound.withStatus hvotes _
    · obtain ⟨lost, n, r, -, -, -, hsettled⟩ := htick.stays id hid p ⟨hp, hpending, hproposer⟩
      rw [hsettled] at hp'
      cases hp'
      exact VotesSound.withStatus (without_sound hvotes _) _
  · rw [htick.others id hid] at hp'
    exact h.votes id p' hp'

theorem Ticked.open_after {id : ProposalId} {p' : GovernanceProposal Action}
    (hp' : e'.proposals id = some p') (hstatus : p'.status = .pending) : e'.Open p' := by
  obtain ⟨p, hstays, rfl, hvoters, htally⟩ := htick.pending_after hids hp' hstatus
  have hopen := h.opened id p hstays.held hstays.pending
  have hmodel : e'.model = e.model := by
    rw [htick.engine]
  have hfrom : (p.without (departed ++ reset)).VotesFrom e'.voters := by
    intro v hv
    rw [hvoters, mem_remaining]
    rw [GovernanceProposal.mem_without_votes] at hv
    exact ⟨hopen.votesFrom v hv.1, hv.2⟩
  refine ⟨hfrom, ?_, ?_⟩
  · -- Without voters there are no votes, and the tally would have approved.
    intro hunanimity hempty
    have happrovals : (p.without (departed ++ reset)).approvals = [] := by
      rw [List.eq_nil_iff_forall_not_mem]
      intro v hv
      have hmem := hfrom v (List.mem_append_left _ hv)
      rw [hempty] at hmem
      cases hmem
    rw [tally, ← hvoters, hempty, ← hmodel, hunanimity, evaluateResolution, happrovals,
      List.length_nil, List.length_nil, if_pos rfl] at htally
    cases htally
  · intro t ht
    rw [hmodel] at ht
    exact lt_of_le_of_lt List.filter_sublist.length_le (hopen.short t ht)

theorem Ticked.quorum_after (hfair : e.FairTick now departed reset) {id : ProposalId}
    {p' : GovernanceProposal Action} (hp' : e'.proposals id = some p')
    (happroved : p'.status = .approved)
    (hpending : ∀ q, e.proposals id = some q → q.status = .pending) :
    Quorum e'.model e'.voters now p' := by
  -- A proposal the tick does not visit keeps its status.
  have hid : id ∈ ids := by
    by_contra hid
    rw [htick.others id hid] at hp'
    rw [hpending p' hp'] at happroved
    cases happroved
  obtain ⟨p, hp, hstatus⟩ := (hids.2 id).mp hid
  by_cases hproposer : p.proposerDid ∈ departed
  · rw [htick.departs id hid p hp hproposer] at hp'
    cases hp'
    cases happroved
  have hstays : e.Stays departed id p := ⟨hp, hstatus, hproposer⟩
  obtain ⟨lost, n, r, hlost, hmax, hstops, hsettled⟩ := htick.stays id hid p hstays
  rw [hsettled] at hp'
  cases hp'
  cases r with
  | none => cases happroved
  | some s =>
    have hs : s = .approved := happroved
    rw [hs] at hstops
    obtain ⟨hleft, hfrom, hout⟩ := hfair id p lost n hstays hlost hstops
    have hvoters : e'.voters = remaining e.voters ((departed ++ reset).take k) := by
      rw [htick.engine]
    have hmodel : e'.model = e.model := by
      rw [htick.engine]
    -- The voters after the tick are among those the resolution counted.
    have htake : (departed ++ reset).take (max lost n) ⊆ (departed ++ reset).take k :=
      List.take_subset_take_left _ hmax
    rw [hmodel, hvoters]
    refine Quorum.withStatus (quorum_of_approved h.model ?_ hfrom (fun _ => hleft) ?_ ?_
      hstops.last) _
    · exact (without_sound (h.votes id p hp) _).distinct
    · intro d hd
      rw [mem_remaining] at hd ⊢
      exact ⟨hd.1, fun hmem => hd.2 (htake hmem)⟩
    · intro hne
      apply remaining_congr
      intro d hd
      refine ⟨fun hmem => ?_, fun hmem => htake hmem⟩
      by_contra hkept
      exact hout hne d (List.mem_of_mem_take hmem) (mem_remaining.mpr ⟨hd, hkept⟩)

theorem Ticked.safe (hfair : e.FairTick now departed reset) : SafeStep S now e e' := by
  refine ⟨⟨?_, ?_, ?_⟩, ?_, ?_⟩
  · rw [htick.engine]
    exact h.model
  · exact fun id p hp => htick.votes_after h hids hp
  · exact fun id p hp hstatus => htick.open_after h hids hp hstatus
  · intro id p hp hterminal
    rw [htick.others id fun hid => ?_]
    · exact hp
    · obtain ⟨q, hq, hpending⟩ := (hids.2 id).mp hid
      rw [hp] at hq
      cases hq
      exact hterminal hpending
  · exact fun id p hp happroved hpending => htick.quorum_after h hids hfair hp happroved hpending

end Tick

end Engine

inductive Call (Action : Type)
  | propose (proposer : Did) (action : Action) (context : GovernanceContext)
      (vote : Option SignedVote)
  | approve (id : ProposalId) (voter : Did) (context : GovernanceContext) (vote : SignedVote)
  | reject (id : ProposalId) (voter : Did) (context : GovernanceContext) (vote : SignedVote)
  | withdraw (id : ProposalId) (voter : Did) (context : GovernanceContext)
  | resolve (id : ProposalId) (context : GovernanceContext)
  | invalidate (id : ProposalId) (reason : String)
  | tick (context : GovernanceContext) (departed reset : List Did) (ids : List ProposalId)

/-- The time of a call; an invalidation has none. -/
def Call.time : Call Action → Option ℕ
  | propose _ _ context _ => some context.now
  | approve _ _ context _ => some context.now
  | reject _ _ context _ => some context.now
  | withdraw _ _ context => some context.now
  | resolve _ context => some context.now
  | invalidate _ _ => none
  | tick context _ _ _ => some context.now

namespace Engine

/-- The engine after a call; a refused one leaves it as it is. -/
def after {α : Type} (e : Engine Action Key) :
    Except GovernanceError (α × Engine Action Key) → Engine Action Key
  | .ok (_, e') => e'
  | .error _ => e

def perform (S : VoteScheme Action Key) (e : Engine Action Key) :
    Call Action → Engine Action Key
  | .propose proposer action context vote =>
    e.after (e.proposeSigned S proposer action context vote)
  | .approve id voter context vote => e.after (e.approveSigned S id voter context vote)
  | .reject id voter context vote => e.after (e.rejectSigned S id voter context vote)
  | .withdraw id voter context => e.after (e.withdrawVote id voter context)
  | .resolve id context => e.after (e.resolveProposal id context.now)
  | .invalidate id reason => e.after (e.invalidateProposal id reason)
  | .tick context departed reset ids => (processPendingProposals context departed reset ids e).2

/-- A tick goes over the pending proposals, in any order. -/
def Listed (e : Engine Action Key) : Call Action → Prop
  | .tick _ _ _ ids => e.PendingIds ids
  | _ => True

/-- A call whose tick, if it is one, is fair. -/
def Fair (e : Engine Action Key) (c : Call Action) : Prop :=
  e.Listed c ∧ match c with
    | .tick context departed reset _ => e.FairTick context.now departed reset
    | _ => True

/-- The engines that calls lead to from `e₀`, with the time of the last one. -/
inductive Driven (S : VoteScheme Action Key) (ok : Engine Action Key → Call Action → Prop)
    (e₀ : Engine Action Key) : ℕ → Engine Action Key → Prop
  | start (t : ℕ) : Driven S ok e₀ t e₀
  | call {t : ℕ} {e : Engine Action Key} (c : Call Action) (h : Driven S ok e₀ t e)
      (hok : ok e c) (htime : ∀ now ∈ c.time, t ≤ now) :
      Driven S ok e₀ (c.time.getD t) (e.perform S c)

/-- No proposal is approved without its model's approvals, in any run of calls that are `ok`. -/
structure SafeApprovals (S : VoteScheme Action Key) (ok : Engine Action Key → Call Action → Prop)
    (e₀ : Engine Action Key) : Prop where
  votes : ∀ t e, Driven S ok e₀ t e → ∀ id p, e.proposals id = some p →
    VotesSound S e.keyResolver id p
  final : ∀ t e, Driven S ok e₀ t e → ∀ c, ok e c → (∀ now ∈ c.time, t ≤ now) →
    ∀ id p, e.proposals id = some p → p.status ≠ .pending →
    (e.perform S c).proposals id = some p
  quorum : ∀ t e, Driven S ok e₀ t e → ∀ c, ok e c → (∀ now ∈ c.time, t ≤ now) →
    ∀ id p, (e.perform S c).proposals id = some p → p.status = .approved →
    (∀ q, e.proposals id = some q → q.status = .pending) →
    Quorum (e.perform S c).model (e.perform S c).voters (c.time.getD t) p

variable {S} {e : Engine Action Key} {now : ℕ}

theorem after_safe {α : Type} (h : e.Sound S)
    {call : Except GovernanceError (α × Engine Action Key)}
    (hcall : ∀ result e', call = .ok (result, e') → SafeStep S now e e') :
    SafeStep S now e (e.after call) := by
  cases call with
  | error err => exact SafeStep.refl h
  | ok r => exact hcall r.1 r.2 rfl

theorem perform_safe (h : e.Sound S) {c : Call Action} (hfair : e.Fair c) (t : ℕ) :
    SafeStep S (c.time.getD t) e (e.perform S c) := by
  cases c with
  | propose proposer action context vote =>
    exact after_safe h fun _ _ hcall => proposeSigned_safe h hcall
  | approve id voter context vote => exact after_safe h fun _ _ hcall => castSigned_safe h hcall
  | reject id voter context vote => exact after_safe h fun _ _ hcall => castSigned_safe h hcall
  | withdraw id voter context => exact after_safe h fun _ _ hcall => withdrawVote_safe h hcall
  | resolve id context => exact after_safe h fun _ _ hcall => resolveProposal_safe h hcall
  | invalidate id reason => exact after_safe h fun _ _ hcall => invalidateProposal_safe h hcall
  | tick context departed reset ids =>
    obtain ⟨k, htick⟩ := tick_spec hfair.1 context departed reset
    exact htick.safe h hfair.1 hfair.2

theorem new_sound {model : VotingModel} {voters : List Did} {window : ℕ}
    {keyResolver : Did → Option Key} {e₀ : Engine Action Key}
    (h : Engine.new model voters window keyResolver = .ok e₀) : e₀.Sound S := by
  cases model with
  | threshold t =>
    simp only [Engine.new, bind_ok_iff, exists_unit_iff, require_ok_iff, pure_ok_iff,
      decide_eq_true_eq] at h
    obtain ⟨-, hthreshold, -, rfl⟩ := h
    have hlt : t < 2^32 := lt_of_le_of_lt hthreshold.2 (Nat.mod_lt _ (by norm_num))
    exact ⟨⟨hthreshold.1, hlt⟩, by simp, by simp⟩
  | majority bps =>
    simp only [Engine.new, bind_ok_iff, exists_unit_iff, pure_ok_iff] at h
    obtain ⟨-, -, -, rfl⟩ := h
    exact ⟨trivial, by simp, by simp⟩
  | unanimity =>
    simp only [Engine.new, bind_ok_iff, exists_unit_iff, pure_ok_iff] at h
    obtain ⟨-, -, rfl⟩ := h
    exact ⟨trivial, by simp, by simp⟩

theorem driven_sound {e₀ : Engine Action Key} (h₀ : e₀.Sound S) {t : ℕ}
    (h : Driven S Fair e₀ t e) : e.Sound S := by
  induction h with
  | start t => exact h₀
  | call c _ hok _ ih => exact (perform_safe ih hok 0).sound

/-- Where every tick of the run is fair, nothing is approved without its quorum. -/
theorem fair_runs_safe {model : VotingModel} {voters : List Did} {window : ℕ}
    {keyResolver : Did → Option Key} {e₀ : Engine Action Key}
    (h : Engine.new model voters window keyResolver = .ok e₀) : SafeApprovals S Fair e₀ := by
  have h₀ : e₀.Sound S := new_sound h
  refine ⟨?_, ?_, ?_⟩
  · exact fun t e hrun id p hp => (driven_sound h₀ hrun).votes id p hp
  · exact fun t e hrun c hok _ id p hp hterminal =>
      (perform_safe (driven_sound h₀ hrun) hok t).final id p hp hterminal
  · exact fun t e hrun c hok _ id p hp happroved hpending =>
      (perform_safe (driven_sound h₀ hrun) hok t).quorum id p hp happroved hpending

def sampleSignature : Bytes := List.replicate 64 1

/-- One proposal id, and the one signature that verifies. -/
def sampleScheme : VoteScheme Unit Unit where
  sha256 _ := [0]
  actionBytes _ := .ok []
  verifyStrict _ _ signature := signature = sampleSignature

def twoVoters : Engine Unit Unit :=
  ⟨.unanimity, ["did:a", "did:b"], 300, fun _ => none, fun _ => some ()⟩

theorem twoVoters_safe : SafeApprovals sampleScheme Fair twoVoters := by
  have hnew : Engine.new .unanimity ["did:a", "did:b"] 300 (fun _ => some ()) = .ok twoVoters :=
    rfl
  exact fair_runs_safe hnew

/-- The proposal of `a`, who has then withdrawn the vote. -/
def withdrawnProposal : GovernanceProposal Unit :=
  { proposalId := [0], contextId := "ctx", proposerDid := "did:a", action := (),
    status := .pending, createdAt := 0, votingDeadline := 300, approvals := [], rejections := [],
    createdAtEpoch := none }

def proposal : Call Unit :=
  .propose "did:a" () ⟨"ctx", none, 0⟩ (some ⟨"did:a", .approve, 0, sampleSignature⟩)

def withdrawal : Call Unit := .withdraw [0] "did:a" ⟨"ctx", none, 1⟩

theorem twoVoters_withdrawn : (twoVoters.perform sampleScheme proposal).perform sampleScheme
    withdrawal = twoVoters.set [0] withdrawnProposal := by
  have hsets : (twoVoters.perform sampleScheme proposal).perform sampleScheme withdrawal =
      (twoVoters.set [0] { withdrawnProposal with
        approvals := [⟨"did:a", .approve, 0, sampleSignature⟩] }).set [0] withdrawnProposal := by
    rfl
  rw [hsets, set_set]

/-- The reset of both voters leaves no one to approve, and the proposal is approved. -/
theorem approved_without_approval : ¬ ∀ (model : VotingModel) (voters : List Did) (window : ℕ)
    (keyResolver : Did → Option Unit) (e₀ : Engine Unit Unit), voters.Nodup →
    Engine.new model voters window keyResolver = .ok e₀ →
    SafeApprovals sampleScheme Listed e₀ := by
  intro h
  have hsafe := h .unanimity ["did:a", "did:b"] 300 (fun _ => some ()) twoVoters (by decide) rfl
  have hrun : Driven sampleScheme Listed twoVoters 1 (twoVoters.set [0] withdrawnProposal) := by
    rw [← twoVoters_withdrawn]
    exact ((Driven.start 0).call proposal trivial (by decide)).call withdrawal trivial (by decide)
  have hids : (twoVoters.set [0] withdrawnProposal).PendingIds [[0]] := by
    refine ⟨by simp, fun id => ?_⟩
    rw [List.mem_singleton]
    by_cases hid : id = [0]
    · simp [hid, Engine.set, withdrawnProposal]
    · simp [hid, Engine.set, twoVoters]
  let c : Call Unit := .tick ⟨"ctx", none, 2⟩ [] ["did:a", "did:b"] [[0]]
  have happroved : ((twoVoters.set [0] withdrawnProposal).perform sampleScheme c).proposals [0] =
      some { withdrawnProposal with status := .approved } := by
    decide +kernel
  have hquorum := hsafe.quorum 1 _ hrun c hids (by decide) [0] _ happroved rfl (by
    intro q hq
    have hself : (twoVoters.set [0] withdrawnProposal).proposals [0] = some withdrawnProposal := by
      simp [Engine.set]
    rw [hself] at hq
    cases hq
    rfl)
  exact hquorum.approval rfl

end Engine

end ScpCore.Governance
