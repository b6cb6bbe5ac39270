import ScpCore.GovernanceEngine

/-! The timeout tick. It goes through the pending proposals in the order of a hash map, and at
each it removes the departed and the reset members one by one, with a tally after each, until
the proposal is decided. The voter set is shared: what one proposal's turn removes is gone for
the next. -/

namespace ScpCore.Governance

namespace Engine
variable {Action Key : Type}

def departEach (id : ProposalId) (context : GovernanceContext) :
    List Did → Engine Action Key → Bool × List (GovernanceEvent Action) × Engine Action Key
  | [], e => (false, [], e)
  | d :: ds, e =>
    match e.removeDepartedVoter id d context with
    | .error _ => departEach id context ds e
    | .ok ((some _, events), e') => (true, events, e')
    | .ok ((none, events), e') =>
      let (resolved, events', e'') := departEach id context ds e'
      (resolved, events ++ events', e'')

def resetEach (id : ProposalId) (context : GovernanceContext) :
    List Did → Engine Action Key → List (GovernanceEvent Action) × Engine Action Key
  | [], e => ([], e)
  | d :: ds, e =>
    match e.removeDepartedVoter id d context with
    | .error _ => resetEach id context ds e
    | .ok ((_, events), e') =>
      let (events', e'') := resetEach id context ds e'
      (events ++ events', e'')

/-- Steps 2 to 4 of a proposal's turn. -/
def removeAndResolve (e : Engine Action Key) (id : ProposalId) (context : GovernanceContext)
    (departed reset : List Did) : List (GovernanceEvent Action) × Engine Action Key :=
  let (resolvedByDeparture, events, e') := departEach id context departed e
  if resolvedByDeparture then (events, e')
  else
    let (events', e'') := resetEach id context reset e'
    match e''.resolveProposal id context.now with
    | .error _ => (events ++ events', e'')
    | .ok ((_, events''), e''') => (events ++ events' ++ events'', e''')

def processOne (e : Engine Action Key) (id : ProposalId) (context : GovernanceContext)
    (departed reset : List Did) : List (GovernanceEvent Action) × Engine Action Key :=
  let proposerDeparted := match e.proposals id with
    | some p => decide (p.proposerDid ∈ departed)
    | none => false
  match proposerDeparted, e.invalidateProposal id "proposer departed the context" with
  | true, .ok (events, e') => (events, e')
  | _, _ => e.removeAndResolve id context departed reset

/-- The tick over the pending proposals in the order `ids`. -/
def processPendingProposals (context : GovernanceContext) (departed reset : List Did) :
    List ProposalId → Engine Action Key → List (GovernanceEvent Action) × Engine Action Key
  | [], e => ([], e)
  | id :: ids, e =>
    let (events, e') := e.processOne id context departed reset
    let (events', e'') := processPendingProposals context departed reset ids e'
    (events ++ events', e'')

end Engine

/-- The voters who are not among the `lost`. -/
def remaining (voters lost : List Did) : List Did := voters.filter (· ∉ lost)

@[simp] theorem mem_remaining {voters lost : List Did} {d : Did} :
    d ∈ remaining voters lost ↔ d ∈ voters ∧ d ∉ lost := by
  simp [remaining]

@[simp] theorem remaining_nil (voters : List Did) : remaining voters [] = voters := by
  simp [remaining]

theorem remaining_remaining (voters lost lost' : List Did) :
    remaining (remaining voters lost) lost' = remaining voters (lost ++ lost') := by
  simp [remaining, List.filter_filter, not_or, Bool.and_comm]

theorem remaining_congr {voters lost lost' : List Did}
    (h : ∀ d ∈ voters, d ∈ lost ↔ d ∈ lost') : remaining voters lost = remaining voters lost' := by
  apply List.filter_congr
  intro d hd
  simp [h d hd]

theorem take_append_take_mem {gone : List Did} {m n : ℕ} {d : Did} :
    d ∈ gone.take m ++ gone.take n ↔ d ∈ gone.take (max m n) := by
  rcases le_total m n with h | h
  · rw [max_eq_right h, List.mem_append]
    exact or_iff_right_of_imp fun hd => List.take_subset_take_left gone h hd
  · rw [max_eq_left h, List.mem_append]
    exact or_iff_left_of_imp fun hd => List.take_subset_take_left gone h hd

theorem remaining_take_take (voters gone : List Did) (m n : ℕ) :
    remaining (remaining voters (gone.take m)) (gone.take n) =
      remaining voters (gone.take (max m n)) := by
  rw [remaining_remaining]
  exact remaining_congr fun d _ => take_append_take_mem

namespace GovernanceProposal
variable {Action : Type} (p : GovernanceProposal Action)

@[simp] theorem without_nil : p.without [] = p := by
  simp [without]

theorem without_without (gone gone' : List Did) :
    (p.without gone).without gone' = p.without (gone ++ gone') := by
  simp [without, List.filter_filter, not_or, Bool.and_comm]

@[simp] theorem mem_without_votes {gone : List Did} {v : SignedVote} :
    v ∈ (p.without gone).votes ↔ v ∈ p.votes ∧ v.voterDid ∉ gone := by
  simp only [votes, without, List.mem_append, List.mem_filter, decide_eq_true_eq]
  tauto

theorem hasVoted_iff (voter : Did) :
    p.hasVoted voter = true ↔ ∃ v ∈ p.votes, v.voterDid = voter := by
  simp only [hasVoted, votes, Bool.or_eq_true, List.any_eq_true, decide_eq_true_eq,
    List.mem_append]
  constructor
  · rintro (⟨v, hv, rfl⟩ | ⟨v, hv, rfl⟩)
    · exact ⟨v, .inl hv, rfl⟩
    · exact ⟨v, .inr hv, rfl⟩
  · rintro ⟨v, hv | hv, rfl⟩
    · exact .inl ⟨v, hv, rfl⟩
    · exact .inr ⟨v, hv, rfl⟩

theorem without_congr {gone gone' : List Did}
    (h : ∀ v ∈ p.votes, v.voterDid ∈ gone ↔ v.voterDid ∈ gone') :
    p.without gone = p.without gone' := by
  have happ : p.approvals.filter (·.voterDid ∉ gone) = p.approvals.filter (·.voterDid ∉ gone') := by
    apply List.filter_congr
    intro v hv
    simp [h v (List.mem_append_left _ hv)]
  have hrej : p.rejections.filter (·.voterDid ∉ gone) =
      p.rejections.filter (·.voterDid ∉ gone') := by
    apply List.filter_congr
    intro v hv
    simp [h v (List.mem_append_right _ hv)]
  simp only [without, happ, hrej]

theorem without_of_not_hasVoted {voter : Did} (h : p.hasVoted voter = false) :
    p.without [voter] = p := by
  have hnil : p.without [voter] = p.without [] := by
    apply without_congr
    intro v hv
    have hne : ¬ v.voterDid = voter := by
      intro heq
      have htrue := (p.hasVoted_iff voter).mpr ⟨v, hv, heq⟩
      rw [h] at htrue
      cases htrue
    simp [hne]
  rw [hnil, without_nil]

end GovernanceProposal

theorem evaluateResolution_ne_pending {Action : Type} {model : VotingModel} {voters : List Did}
    {p : GovernanceProposal Action} {now : ℕ} {status : ProposalStatus}
    (h : evaluateResolution model voters p now = some status) : status ≠ .pending := by
  cases model with
  | threshold t =>
    simp only [evaluateResolution] at h
    split_ifs at h <;> cases h <;> simp
  | majority bps =>
    simp only [evaluateResolution] at h
    split_ifs at h <;> cases h <;> simp
  | unanimity =>
    simp only [evaluateResolution] at h
    split at h
    · cases h
      simp
    · split at h
      · cases h
        simp
      · split_ifs at h
        cases h
        simp

namespace Engine
variable {Action Key : Type} (e : Engine Action Key)

/-- The engine in which proposal `id` stands as `p` and the voters have lost `lost`. -/
def shrink (id : ProposalId) (lost : List Did) (p : GovernanceProposal Action) :
    Engine Action Key :=
  { e.set id p with voters := remaining e.voters lost }

@[simp] theorem shrink_proposals_self (id : ProposalId) (lost : List Did)
    (p : GovernanceProposal Action) : (e.shrink id lost p).proposals id = some p := by
  simp [shrink, set]

theorem shrink_shrink (id : ProposalId) (lost lost' : List Did)
    (p p' : GovernanceProposal Action) :
    (e.shrink id lost p).shrink id lost' p' = e.shrink id (lost ++ lost') p' := by
  simp [shrink, set, remaining_remaining]

/-- The proposal without the votes of `gone`, with the status of a tally that decides it. -/
def settled (p : GovernanceProposal Action) (gone : List Did) (tally : Option ProposalStatus) :
    GovernanceProposal Action :=
  { p.without gone with status := tally.getD .pending }

theorem resolveProposal_terminal {id : ProposalId} {p : GovernanceProposal Action}
    (hp : e.proposals id = some p) (hstatus : p.status ≠ .pending) (now : ℕ) :
    e.resolveProposal id now = .ok ((p.status, []), e) := by
  have hterm : p.status.isTerminal = true := by
    simpa [ProposalStatus.isTerminal] using hstatus
  simp [resolveProposal, get, okOr, hp, hterm, bind, Except.bind, pure, Except.pure]

theorem resolveProposal_pending {id : ProposalId} {p : GovernanceProposal Action}
    (hp : e.proposals id = some p) (hstatus : p.status = .pending) (now : ℕ) :
    ∃ events, e.resolveProposal id now =
      .ok (((evaluateResolution e.model e.voters p now).getD .pending, events),
        e.set id (settled p [] (evaluateResolution e.model e.voters p now))) := by
  have hterm : p.status.isTerminal = false := by
    simp [ProposalStatus.isTerminal, ProposalStatus.isPending, hstatus]
  have hset : e.set id { p with status := .pending } = e := by
    have hself : ({ p with status := .pending } : GovernanceProposal Action) = p := by
      rw [← hstatus]
    simp only [set, hself]
    rw [← hp, Function.update_eq_self]
  cases heval : evaluateResolution e.model e.voters p now with
  | none =>
    refine ⟨[], ?_⟩
    simp [resolveProposal, get, okOr, hp, hterm, heval, settled, hset, bind, Except.bind, pure,
      Except.pure]
  | some status =>
    refine ⟨[.proposalResolved id status], ?_⟩
    simp [resolveProposal, get, okOr, hp, hterm, heval, settled, bind, Except.bind, pure,
      Except.pure]

theorem removeDepartedVoter_terminal {id : ProposalId} {p : GovernanceProposal Action}
    (hp : e.proposals id = some p) (hstatus : p.status ≠ .pending) (d : Did)
    (context : GovernanceContext) : e.removeDepartedVoter id d context = .ok ((none, []), e) := by
  simp [removeDepartedVoter, get, okOr, hp, hstatus, bind, Except.bind, pure, Except.pure]

/-- The tally of `p` once `lost` are gone from the voters and `gone` from its votes. -/
def tally (p : GovernanceProposal Action) (now : ℕ) (lost gone : List Did) :
    Option ProposalStatus :=
  evaluateResolution e.model (remaining e.voters lost) (p.without gone) now

theorem removeDepartedVoter_pending {id : ProposalId} {p : GovernanceProposal Action}
    (hp : e.proposals id = some p) (hstatus : p.status = .pending) (d : Did)
    (context : GovernanceContext) :
    ∃ events, e.removeDepartedVoter id d context =
      .ok ((e.tally p context.now [d] [d], events),
        e.shrink id [d] (settled p [d] (e.tally p context.now [d] [d]))) := by
  have hwithout : (if p.hasVoted d then p.without [d] else p) = p.without [d] := by
    split_ifs with hvoted
    · rfl
    · rw [p.without_of_not_hasVoted (by simpa using hvoted)]
  have hvoters : e.voters.filter (· ≠ d) = remaining e.voters [d] := by
    simp [remaining]
  let shrunk := e.shrink id [d] (p.without [d])
  have hshrunk : shrunk.proposals id = some (p.without [d]) := by
    simp [shrunk]
  obtain ⟨events, hresolve⟩ := shrunk.resolveProposal_pending hshrunk hstatus context.now
  have htally : evaluateResolution shrunk.model shrunk.voters (p.without [d]) context.now =
      e.tally p context.now [d] [d] := rfl
  rw [htally] at hresolve
  refine ⟨events, ?_⟩
  have hset : shrunk.set id (settled (p.without [d]) [] (e.tally p context.now [d] [d])) =
      e.shrink id [d] (settled p [d] (e.tally p context.now [d] [d])) := by
    simp [shrunk, shrink, set, settled]
  rw [hset] at hresolve
  simp only [shrunk, shrink] at hresolve
  simp only [removeDepartedVoter, get, okOr, hp, Option.elim_some, bind, Except.bind,
    ProposalStatus.isPending_iff, hstatus, if_true, hwithout, hvoters, pure, Except.pure, hresolve]
  cases htally : e.tally p context.now [d] [d] with
  | none => simp [shrink, ProposalStatus.isTerminal, ProposalStatus.isPending]
  | some status =>
    have hne := evaluateResolution_ne_pending htally
    simp [shrink, ProposalStatus.isTerminal, hne]

theorem resetEach_terminal {id : ProposalId} {p : GovernanceProposal Action}
    (hp : e.proposals id = some p) (hstatus : p.status ≠ .pending) (context : GovernanceContext)
    (ds : List Did) : resetEach id context ds e = ([], e) := by
  induction ds with
  | nil => rfl
  | cons d ds ih =>
    rw [resetEach, e.removeDepartedVoter_terminal hp hstatus]
    simp [ih]

theorem settled_none {p : GovernanceProposal Action} (hstatus : p.status = .pending)
    (gone : List Did) : settled p gone none = p.without gone := by
  simp [settled, GovernanceProposal.without, hstatus]

theorem settled_without (p : GovernanceProposal Action) (gone gone' : List Did)
    (r : Option ProposalStatus) :
    settled (p.without gone) gone' r = settled p (gone ++ gone') r := by
  simp only [settled, p.without_without]

theorem tally_shrink (p q : GovernanceProposal Action) (id : ProposalId) (now : ℕ)
    (lost gone lost' gone' : List Did) :
    (e.shrink id lost q).tally (p.without gone) now lost' gone' =
      e.tally p now (lost ++ lost') (gone ++ gone') := by
  simp only [tally, shrink, remaining_remaining, p.without_without]
  rfl

/-- What the removals of `ds`, one after the other, do to a pending proposal: they stop at the
first tally that decides it. -/
structure Departs (e e' : Engine Action Key) (id : ProposalId) (p : GovernanceProposal Action)
    (now : ℕ) (ds : List Did) (n : ℕ) (r : Option ProposalStatus) : Prop where
  le : n ≤ ds.length
  engine : e' = e.shrink id (ds.take n) (settled p (ds.take n) r)
  before : ∀ m, m ≠ 0 → m < n → e.tally p now (ds.take m) (ds.take m) = none
  last : n ≠ 0 → e.tally p now (ds.take n) (ds.take n) = r
  undecided : r = none → n = ds.length
  none_of_zero : n = 0 → r = none

variable {e}

theorem Departs.cons {e' : Engine Action Key} {id : ProposalId} {p : GovernanceProposal Action}
    {now : ℕ} {d : Did} {ds : List Did} {n : ℕ} {r : Option ProposalStatus}
    (hfirst : e.tally p now [d] [d] = none)
    (h : Departs (e.shrink id [d] (p.without [d])) e' id (p.without [d]) now ds n r) :
    Departs e e' id p now (d :: ds) (n+1) r where
  le := by
    have hle := h.le
    simp only [List.length_cons]
    omega
  engine := by
    rw [h.engine, shrink_shrink, settled_without]
    simp
  before m hm hlt := by
    obtain ⟨m, rfl⟩ := Nat.exists_eq_succ_of_ne_zero hm
    by_cases hzero : m = 0
    · subst hzero
      simpa using hfirst
    · have hbefore := h.before m hzero (by omega)
      rw [tally_shrink] at hbefore
      simpa using hbefore
  last _ := by
    by_cases hzero : n = 0
    · subst hzero
      rw [h.none_of_zero rfl]
      simpa using hfirst
    · have hlast := h.last hzero
      rw [tally_shrink] at hlast
      simpa using hlast
  undecided hr := by
    rw [h.undecided hr, List.length_cons]
  none_of_zero hzero := by omega

theorem departEach_pending {id : ProposalId} (context : GovernanceContext) (ds : List Did) :
    ∀ (e : Engine Action Key) (p : GovernanceProposal Action), e.proposals id = some p →
      p.status = .pending →
      ∃ n r, Departs e (departEach id context ds e).2.2 id p context.now ds n r ∧
        (departEach id context ds e).1 = r.isSome ∧
        (resetEach id context ds e).2 = (departEach id context ds e).2.2 := by
  induction ds with
  | nil =>
    intro e p hp hstatus
    refine ⟨0, none, ?_, rfl, rfl⟩
    refine ⟨le_rfl, ?_, fun m _ hm => absurd hm (Nat.not_lt_zero m), fun h => absurd rfl h,
      fun _ => rfl, fun _ => rfl⟩
    simp only [departEach, List.take_nil, settled_none hstatus, GovernanceProposal.without_nil,
      shrink, set, remaining_nil]
    rw [← hp, Function.update_eq_self]
  | cons d ds ih =>
    intro e p hp hstatus
    obtain ⟨events, hremove⟩ := e.removeDepartedVoter_pending hp hstatus d context
    rw [departEach, resetEach, hremove]
    cases htally : e.tally p context.now [d] [d] with
    | some status =>
      -- The first removal decides; the reset loop goes on over a terminal proposal.
      have hterminal : (settled p [d] (some status)).status ≠ .pending :=
        evaluateResolution_ne_pending htally
      refine ⟨1, some status, ?_, rfl, ?_⟩
      · refine ⟨by simp, by simp, fun m hm hlt => by omega, fun _ => by simpa using htally, ?_,
          fun h => by omega⟩
        intro h
        cases h
      · dsimp only
        rw [resetEach_terminal _ (shrink_proposals_self e id [d] _) hterminal]
    | none =>
      rw [settled_none hstatus]
      obtain ⟨n, r, hdeparts, hstop, hreset⟩ :=
        ih (e.shrink id [d] (p.without [d])) (p.without [d]) (shrink_proposals_self e id [d] _)
          hstatus
      exact ⟨n+1, r, hdeparts.cons htally, hstop, hreset⟩

theorem departEach_append (id : ProposalId) (context : GovernanceContext)
    (ds ds' : List Did) :
    ∀ e : Engine Action Key, (departEach id context (ds ++ ds') e).2.2 =
      if (departEach id context ds e).1 then (departEach id context ds e).2.2
      else (departEach id context ds' (departEach id context ds e).2.2).2.2 := by
  induction ds with
  | nil => intro e; rfl
  | cons d ds ih =>
    intro e
    rw [List.cons_append, departEach, departEach]
    split
    · exact ih e
    · rfl
    · next e' _ => exact ih e'

/-- The tallies of a turn that finds the first `lost` of `gone` already out of the voter set:
it ends at the first one that decides, after `n` removals from the votes. -/
structure Stops (e : Engine Action Key) (p : GovernanceProposal Action) (now : ℕ)
    (gone : List Did) (lost n : ℕ) (r : Option ProposalStatus) : Prop where
  le : n ≤ gone.length
  /-- With nobody to remove there is the one tally of the deadline check. -/
  nil_of_zero : n = 0 → gone = []
  before : ∀ m, m ≠ 0 → m < n → e.tally p now (gone.take (max lost m)) (gone.take m) = none
  last : e.tally p now (gone.take (max lost n)) (gone.take n) = r
  undecided : r = none → n = gone.length

theorem Stops.rebase {e' : Engine Action Key} {p : GovernanceProposal Action} {now : ℕ}
    {gone : List Did} {lost n : ℕ} {r : Option ProposalStatus} (hmodel : e'.model = e.model)
    (hvoters : e'.voters = remaining e.voters (gone.take lost)) (h : Stops e' p now gone 0 n r) :
    Stops e p now gone lost n r := by
  have htally (m : ℕ) : e.tally p now (gone.take (max lost m)) (gone.take m) =
      e'.tally p now (gone.take (max 0 m)) (gone.take m) := by
    rw [tally, tally, hmodel, hvoters, remaining_take_take, Nat.zero_max]
  refine ⟨h.le, h.nil_of_zero, fun m hm hlt => ?_, ?_, h.undecided⟩
  · rw [htally]
    exact h.before m hm hlt
  · rw [htally]
    exact h.last

theorem shrink_set (id : ProposalId) (lost : List Did) (p q : GovernanceProposal Action) :
    (e.shrink id lost p).set id q = e.shrink id lost q := by
  simp [shrink, set]

/-- The engine after an attempt to resolve. -/
def attemptResolve (e : Engine Action Key) (id : ProposalId) (now : ℕ) : Engine Action Key :=
  match e.resolveProposal id now with
  | .error _ => e
  | .ok (_, e') => e'

theorem attemptResolve_terminal {id : ProposalId} {p : GovernanceProposal Action}
    (hp : e.proposals id = some p) (hstatus : p.status ≠ .pending) (now : ℕ) :
    e.attemptResolve id now = e := by
  rw [attemptResolve, e.resolveProposal_terminal hp hstatus]

theorem attemptResolve_pending {id : ProposalId} {p : GovernanceProposal Action}
    (hp : e.proposals id = some p) (hstatus : p.status = .pending) (now : ℕ) :
    e.attemptResolve id now = e.set id (settled p [] (e.tally p now [] [])) := by
  obtain ⟨events, hresolve⟩ := e.resolveProposal_pending hp hstatus now
  rw [attemptResolve, hresolve]
  simp [tally]

theorem Departs.proposal {e' : Engine Action Key} {id : ProposalId}
    {p : GovernanceProposal Action} {now : ℕ} {ds : List Did} {n : ℕ} {r : Option ProposalStatus}
    (h : Departs e e' id p now ds n r) : e'.proposals id = some (settled p (ds.take n) r) := by
  rw [h.engine, shrink_proposals_self]

theorem Departs.terminal {e' : Engine Action Key} {id : ProposalId}
    {p : GovernanceProposal Action} {now : ℕ} {ds : List Did} {n : ℕ} {s : ProposalStatus}
    (h : Departs e e' id p now ds n (some s)) : s ≠ .pending := by
  by_cases hzero : n = 0
  · cases h.none_of_zero hzero
  · exact evaluateResolution_ne_pending (h.last hzero)

/-- The departures, the resets and the last attempt to resolve are one walk over both lists. -/
theorem removeAndResolve_engine {id : ProposalId} {p : GovernanceProposal Action}
    (hp : e.proposals id = some p) (hstatus : p.status = .pending) (context : GovernanceContext)
    (departed reset : List Did) :
    (e.removeAndResolve id context departed reset).2 =
      (departEach id context (departed ++ reset) e).2.2.attemptResolve id context.now := by
  obtain ⟨n, r, hdepart, hstop, -⟩ := departEach_pending context departed e p hp hstatus
  have happend := departEach_append id context departed reset e
  cases r with
  | some s =>
    have hresolved : (departEach id context departed e).1 = true := hstop
    rw [hresolved, if_pos rfl] at happend
    rw [happend, attemptResolve_terminal hdepart.proposal hdepart.terminal]
    simp [removeAndResolve, hresolved]
  | none =>
    have hunresolved : (departEach id context departed e).1 = false := hstop
    rw [hunresolved, if_neg (by simp)] at happend
    obtain ⟨-, -, -, -, hreset⟩ :=
      departEach_pending context reset _ _ hdepart.proposal rfl
    rw [happend, ← hreset]
    simp only [removeAndResolve, hunresolved, Bool.false_eq_true, if_false, attemptResolve]
    split <;> simp_all

theorem removeAndResolve_stops {id : ProposalId} {p : GovernanceProposal Action}
    (hp : e.proposals id = some p) (hstatus : p.status = .pending) (context : GovernanceContext)
    (departed reset : List Did) :
    ∃ n r, Stops e p context.now (departed ++ reset) 0 n r ∧
      (e.removeAndResolve id context departed reset).2 =
        e.shrink id ((departed ++ reset).take n) (settled p ((departed ++ reset).take n) r) := by
  rw [removeAndResolve_engine hp hstatus]
  obtain ⟨n, r, hwalk, -, -⟩ := departEach_pending context (departed ++ reset) e p hp hstatus
  generalize departed ++ reset = gone at hwalk ⊢
  cases r with
  | some s =>
    -- The walk has decided, and the last attempt changes nothing.
    rw [attemptResolve_terminal hwalk.proposal hwalk.terminal, hwalk.engine]
    have hn : n ≠ 0 := fun hzero => by cases hwalk.none_of_zero hzero
    refine ⟨n, some s, ⟨hwalk.le, fun h => absurd h hn, ?_, ?_, fun h => by cases h⟩, rfl⟩
    · intro m hm hlt
      rw [Nat.zero_max]
      exact hwalk.before m hm hlt
    · rw [Nat.zero_max]
      exact hwalk.last hn
  | none =>
    have hn := hwalk.undecided rfl
    subst hn
    have htake : gone.take gone.length = gone := List.take_length
    rw [attemptResolve_pending hwalk.proposal rfl, hwalk.engine, htake, shrink_set,
      settled_none hstatus, settled_without, tally_shrink, List.append_nil]
    refine ⟨gone.length, e.tally p context.now gone gone, ⟨le_rfl, ?_, ?_, ?_, fun _ => rfl⟩, ?_⟩
    · exact List.eq_nil_of_length_eq_zero
    · intro m hm hlt
      rw [Nat.zero_max]
      exact hwalk.before m hm hlt
    · rw [Nat.zero_max, htake]
    · rw [htake]

/-- A pending proposal whose proposer has not departed. -/
structure Stays (e : Engine Action Key) (departed : List Did) (id : ProposalId)
    (p : GovernanceProposal Action) : Prop where
  held : e.proposals id = some p
  pending : p.status = .pending
  proposer : p.proposerDid ∉ departed

/-- One turn each of `turned`, the last of them first, leaves the first `lost` of the departed
and reset members out of the voter set. -/
inductive Lost (e : Engine Action Key) (now : ℕ) (departed reset : List Did) :
    List ProposalId → ℕ → Prop
  | start : Lost e now departed reset [] 0
  | turn {turned : List ProposalId} {id : ProposalId} {p : GovernanceProposal Action} {lost n : ℕ}
      {r : Option ProposalStatus} (hlost : Lost e now departed reset turned lost)
      (hid : id ∉ turned) (hstays : e.Stays departed id p)
      (hstops : Stops e p now (departed ++ reset) lost n r) :
      Lost e now departed reset (id :: turned) (max lost n)

/-- The turns of other proposals can leave `id` with the first `lost` of the departed and reset
members out of the voter set. -/
def LostBefore (e : Engine Action Key) (now : ℕ) (departed reset : List Did) (id : ProposalId)
    (lost : ℕ) : Prop :=
  ∃ turned, id ∉ turned ∧ Lost e now departed reset turned lost

theorem Lost.le {now : ℕ} {departed reset : List Did} {turned : List ProposalId} {k : ℕ}
    (h : Lost e now departed reset turned k) : k ≤ (departed ++ reset).length := by
  induction h with
  | start => exact Nat.zero_le _
  | turn _ _ _ hstops ih => exact max_le ih hstops.le

def invalidated (p : GovernanceProposal Action) : GovernanceProposal Action :=
  { p with status := .invalidated "proposer departed the context" }

theorem processOne_departed {id : ProposalId} {p : GovernanceProposal Action}
    (hp : e.proposals id = some p) (hstatus : p.status = .pending) (context : GovernanceContext)
    {departed : List Did} (reset : List Did) (hproposer : p.proposerDid ∈ departed) :
    (e.processOne id context departed reset).2 = e.set id (invalidated p) := by
  simp [processOne, invalidateProposal, get, okOr, require, hp, hproposer, hstatus,
    ProposalStatus.isPending, invalidated, bind, Except.bind, pure, Except.pure]

theorem processOne_stays {id : ProposalId} {p : GovernanceProposal Action}
    (context : GovernanceContext) {departed : List Did} (reset : List Did)
    (hstays : e.Stays departed id p) :
    e.processOne id context departed reset = e.removeAndResolve id context departed reset := by
  simp [processOne, hstays.held, hstays.proposer]

/-- What the turns of `ids` do, from an engine `e₁` in which earlier turns of the same tick,
which began in `e`, have removed the first `k₁` voters. -/
structure Ticked (e e₁ e₂ : Engine Action Key) (now : ℕ) (departed reset : List Did)
    (ids : List ProposalId) (k₁ k₂ : ℕ) : Prop where
  le : k₁ ≤ k₂
  lost : ∃ turned, Lost e now departed reset turned k₂
  engine : e₂ = { e with
    voters := remaining e.voters ((departed ++ reset).take k₂), proposals := e₂.proposals }
  others : ∀ id, id ∉ ids → e₂.proposals id = e₁.proposals id
  departs : ∀ id ∈ ids, ∀ p, e.proposals id = some p → p.proposerDid ∈ departed →
    e₂.proposals id = some (invalidated p)
  stays : ∀ id ∈ ids, ∀ p, e.Stays departed id p → ∃ lost n r,
    LostBefore e now departed reset id lost ∧ max lost n ≤ k₂ ∧
    Stops e p now (departed ++ reset) lost n r ∧
    e₂.proposals id = some (settled p ((departed ++ reset).take n) r)

theorem set_proposals_ne {id id' : ProposalId} (h : id' ≠ id) (p : GovernanceProposal Action) :
    (e.set id p).proposals id' = e.proposals id' := by
  simp [set, h]

theorem shrink_proposals_ne {id id' : ProposalId} (h : id' ≠ id) (lost : List Did)
    (p : GovernanceProposal Action) : (e.shrink id lost p).proposals id' = e.proposals id' := by
  simp [shrink, set, h]

/-- One turn, then the rest of the tick. -/
theorem Ticked.cons {e₁ e' e₂ : Engine Action Key} {now : ℕ} {departed reset : List Did}
    {id : ProposalId} {ids : List ProposalId} {k₁ k k₂ : ℕ} (hid : id ∉ ids) (hle : k₁ ≤ k)
    (hothers : ∀ id', id' ≠ id → e'.proposals id' = e₁.proposals id')
    (hdeparts : ∀ p, e.proposals id = some p → p.proposerDid ∈ departed →
      e'.proposals id = some (invalidated p))
    (hstays : ∀ p, e.Stays departed id p → ∃ lost n r,
      LostBefore e now departed reset id lost ∧ max lost n ≤ k ∧
      Stops e p now (departed ++ reset) lost n r ∧
      e'.proposals id = some (settled p ((departed ++ reset).take n) r))
    (hrest : Ticked e e' e₂ now departed reset ids k k₂) :
    Ticked e e₁ e₂ now departed reset (id :: ids) k₁ k₂ where
  le := hle.trans hrest.le
  lost := hrest.lost
  engine := hrest.engine
  others id' hid' := by
    rw [List.mem_cons, not_or] at hid'
    rw [hrest.others id' hid'.2, hothers id' hid'.1]
  departs id' hid' p hp hdeparted := by
    rcases List.mem_cons.mp hid' with rfl | hmem
    · rw [hrest.others id' hid]
      exact hdeparts p hp hdeparted
    · exact hrest.departs id' hmem p hp hdeparted
  stays id' hid' p hstay := by
    rcases List.mem_cons.mp hid' with rfl | hmem
    · rw [hrest.others id' hid]
      obtain ⟨lost, n, r, hlost, hmax, hstops, hproposal⟩ := hstays p hstay
      exact ⟨lost, n, r, hlost, hmax.trans hrest.le, hstops, hproposal⟩
    · exact hrest.stays id' hmem p hstay

theorem processPendingProposals_ticked (e : Engine Action Key) (context : GovernanceContext)
    (departed reset : List Did) (ids : List ProposalId) :
    ∀ (e₁ : Engine Action Key) (turned : List ProposalId) (k₁ : ℕ), (ids ++ turned).Nodup →
    Lost e context.now departed reset turned k₁ →
    e₁ = { e with
      voters := remaining e.voters ((departed ++ reset).take k₁), proposals := e₁.proposals } →
    (∀ id ∈ ids, e₁.proposals id = e.proposals id) →
    (∀ id ∈ ids, ∃ p, e.proposals id = some p ∧ p.status = .pending) →
    ∃ k₂, Ticked e e₁ (processPendingProposals context departed reset ids e₁).2 context.now
      departed reset ids k₁ k₂ := by
  induction ids with
  | nil =>
    intro e₁ turned k₁ _ hlost hengine _ _
    exact ⟨k₁, le_rfl, ⟨turned, hlost⟩, hengine, fun _ _ => rfl, by simp, by simp⟩
  | cons id ids ih =>
    intro e₁ turned k₁ hnodup hlost hengine hsame hpending
    have hnodup' : (ids ++ id :: turned).Nodup := List.perm_middle.nodup_iff.mpr hnodup
    rw [List.cons_append] at hnodup
    obtain ⟨hnew, hnodup⟩ := List.nodup_cons.mp hnodup
    rw [List.mem_append, not_or] at hnew
    obtain ⟨hid, hturned⟩ := hnew
    obtain ⟨p, hp, hstatus⟩ := hpending id (List.mem_cons_self ..)
    have hp₁ : e₁.proposals id = some p := by
      rw [hsame id (List.mem_cons_self ..), hp]
    have hpending' : ∀ id' ∈ ids, ∃ p, e.proposals id' = some p ∧ p.status = .pending :=
      fun id' hmem => hpending id' (List.mem_cons_of_mem _ hmem)
    -- The turn leaves the other proposals, so the rest of the list is as it was in `e`.
    have hsame' {e' : Engine Action Key}
        (h : ∀ id', id' ≠ id → e'.proposals id' = e₁.proposals id') :
        ∀ id' ∈ ids, e'.proposals id' = e.proposals id' := by
      intro id' hmem
      rw [h id' fun heq => hid (heq ▸ hmem)]
      exact hsame id' (List.mem_cons_of_mem _ hmem)
    change ∃ k₂, Ticked e e₁ (processPendingProposals context departed reset ids
      (e₁.processOne id context departed reset).2).2 context.now departed reset (id :: ids) k₁ k₂
    by_cases hproposer : p.proposerDid ∈ departed
    · -- The proposer has departed: the proposal is invalidated and no voter is lost.
      have hothers : ∀ id', id' ≠ id →
          (e₁.set id (invalidated p)).proposals id' = e₁.proposals id' :=
        fun id' hne => set_proposals_ne hne _
      have hset : (e₁.set id (invalidated p)).proposals id = some (invalidated p) := by
        simp [set]
      rw [processOne_departed hp₁ hstatus context reset hproposer]
      obtain ⟨k₂, hrest⟩ := ih (e₁.set id (invalidated p)) turned k₁ hnodup hlost
        (by rw [hengine]; rfl) (hsame' hothers) hpending'
      refine ⟨k₂, Ticked.cons hid le_rfl hothers ?_ ?_ hrest⟩
      · intro p' hp' _
        rw [hp] at hp'
        cases hp'
        exact hset
      · intro p' hstays
        have hp' := hstays.held
        rw [hp] at hp'
        cases hp'
        exact absurd hproposer hstays.proposer
    · have hstays : e.Stays departed id p := ⟨hp, hstatus, hproposer⟩
      have hstays₁ : e₁.Stays departed id p := ⟨hp₁, hstatus, hproposer⟩
      rw [processOne_stays context reset hstays₁]
      obtain ⟨n, r, hstops₁, hturn⟩ := removeAndResolve_stops hp₁ hstatus context departed reset
      have hstops : Stops e p context.now (departed ++ reset) k₁ n r :=
        hstops₁.rebase (by rw [hengine]) (by rw [hengine])
      rw [hturn]
      have hothers : ∀ id', id' ≠ id → (e₁.shrink id ((departed ++ reset).take n)
          (settled p ((departed ++ reset).take n) r)).proposals id' = e₁.proposals id' :=
        fun id' hne => shrink_proposals_ne hne _ _
      have hvoters : e₁.shrink id ((departed ++ reset).take n)
          (settled p ((departed ++ reset).take n) r) = { e with
            voters := remaining e.voters ((departed ++ reset).take (max k₁ n))
            proposals := (e₁.shrink id ((departed ++ reset).take n)
              (settled p ((departed ++ reset).take n) r)).proposals } := by
        rw [← remaining_take_take, hengine]
        rfl
      obtain ⟨k₂, hrest⟩ := ih _ (id :: turned) (max k₁ n) hnodup'
        (hlost.turn hturned hstays hstops) hvoters (hsame' hothers) hpending'
      refine ⟨k₂, Ticked.cons hid (le_max_left _ _) hothers ?_ ?_ hrest⟩
      · intro p' hp' hdeparted
        rw [hp] at hp'
        cases hp'
        exact absurd hdeparted hproposer
      · intro p' hstays'
        have hp' := hstays'.held
        rw [hp] at hp'
        cases hp'
        exact ⟨k₁, n, r, ⟨turned, hturned, hlost⟩, le_rfl, hstops, shrink_proposals_self ..⟩

/-- The whole tick, over the pending proposals in any order. -/
theorem tick_spec {ids : List ProposalId} (hids : e.PendingIds ids) (context : GovernanceContext)
    (departed reset : List Did) :
    ∃ k, Ticked e e (processPendingProposals context departed reset ids e).2 context.now departed
      reset ids 0 k := by
  apply processPendingProposals_ticked e context departed reset ids e [] 0
  · rw [List.append_nil]
    exact hids.1
  · exact Lost.start
  · simp
  · exact fun _ _ => rfl
  · exact fun id hid => (hids.2 id).mp hid

theorem Stops.status_ne_pending {p : GovernanceProposal Action} {now : ℕ} {gone : List Did}
    {lost n : ℕ} {s : ProposalStatus} (h : Stops e p now gone lost n (some s)) : s ≠ .pending :=
  evaluateResolution_ne_pending h.last

/-- A proposal that is pending after the tick has been through all the removals. -/
theorem Ticked.pending_after {e' : Engine Action Key} {now : ℕ} {departed reset : List Did}
    {ids : List ProposalId} {k : ℕ} (hids : e.PendingIds ids)
    (h : Ticked e e e' now departed reset ids 0 k) {id : ProposalId}
    {p' : GovernanceProposal Action} (hp' : e'.proposals id = some p')
    (hstatus : p'.status = .pending) :
    ∃ p, e.Stays departed id p ∧ p' = p.without (departed ++ reset) ∧
      e'.voters = remaining e.voters (departed ++ reset) ∧
      e.tally p now (departed ++ reset) (departed ++ reset) = none := by
  have hid : id ∈ ids := by
    by_contra hid
    rw [h.others id hid] at hp'
    exact hid ((hids.2 id).mpr ⟨p', hp', hstatus⟩)
  obtain ⟨p, hp, hpending⟩ := (hids.2 id).mp hid
  by_cases hproposer : p.proposerDid ∈ departed
  · rw [h.departs id hid p hp hproposer] at hp'
    cases hp'
    cases hstatus
  · have hstays : e.Stays departed id p := ⟨hp, hpending, hproposer⟩
    obtain ⟨lost, n, r, hlost, hmax, hstops, hsettled⟩ := h.stays id hid p hstays
    rw [hsettled] at hp'
    cases hp'
    cases r with
    | some s => exact absurd hstatus hstops.status_ne_pending
    | none =>
      have hn := hstops.undecided rfl
      have hlast := hstops.last
      rw [List.take_of_length_le (by omega), List.take_of_length_le (by omega)] at hlast
      refine ⟨p, hstays, ?_, ?_, hlast⟩
      · rw [hn, List.take_length, settled_none hpending]
      · rw [h.engine, List.take_of_length_le (by omega)]

end Engine

end ScpCore.Governance
