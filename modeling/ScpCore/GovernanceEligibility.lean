import ScpCore.GovernanceTick

/-! Who is eligible after a timeout tick, and when the outcome of a tick depends on the order
of its lists. Both turn on the tallies that are taken while departed or reset members are
still counted. -/

namespace ScpCore.Governance.Engine

variable {Action Key : Type} {e : Engine Action Key} {now : ℕ} {departed reset : List Did}

theorem Stops.le_of_stops {p : GovernanceProposal Action} {gone : List Did} {lost n n' : ℕ}
    {r r' : Option ProposalStatus} (h : Stops e p now gone lost n r)
    (h' : Stops e p now gone lost n' r') : n' ≤ n := by
  by_contra hlt
  rw [not_le] at hlt
  have hn : n ≠ 0 := by
    intro hzero
    have hle := h'.le
    rw [h.nil_of_zero hzero, List.length_nil] at hle
    omega
  have hnone : r = none := by
    rw [← h.last]
    exact h'.before n hn hlt
  have hlength := h.undecided hnone
  have hle := h'.le
  omega

/-- The eligible voters are those before without the departed, and no pending proposal counts
a vote of the departed or of the reset. -/
structure ExactlyDeparted (e e' : Engine Action Key) (departed reset : List Did) : Prop where
  voters : ∀ d, d ∈ e'.voters ↔ d ∈ e.voters ∧ d ∉ departed
  votes : ∀ id p, e'.proposals id = some p → p.status = .pending →
    ∀ v ∈ p.votes, v.voterDid ∉ departed ∧ v.voterDid ∉ reset

/-- The tick gets through the departures at some proposal, and at none of them into the
resets, where these would cost a voter the eligibility. -/
structure OnlyDepartures (e : Engine Action Key) (now : ℕ) (departed reset : List Did) :
    Prop where
  /-- Some proposal is decided by no tally that still counts a departed voter. -/
  departures : (∀ d ∈ departed, d ∉ e.voters) ∨ ∃ id p, e.Stays departed id p ∧
    ∀ lost n s, LostBefore e now departed reset id lost →
      Stops e p now (departed ++ reset) lost n (some s) →
      ∀ d ∈ departed, d ∉ remaining e.voters ((departed ++ reset).take (max lost n))
  /-- Every proposal is decided by a tally of the departures. -/
  resets : (∀ d ∈ reset, d ∉ departed → d ∉ e.voters) ∨ ∀ id p, e.Stays departed id p →
    ∀ lost, lost ≤ departed.length → LostBefore e now departed reset id lost →
      ∃ n s, n ≤ departed.length ∧ Stops e p now (departed ++ reset) lost n (some s)

theorem Lost.le_departed {turned : List ProposalId} {k : ℕ}
    (h : Lost e now departed reset turned k)
    (hdecided : ∀ id p, e.Stays departed id p → ∀ lost, lost ≤ departed.length →
      LostBefore e now departed reset id lost →
      ∃ n s, n ≤ departed.length ∧ Stops e p now (departed ++ reset) lost n (some s)) :
    k ≤ departed.length := by
  induction h with
  | start => exact Nat.zero_le _
  | turn hlost hid hstays hstops ih =>
    obtain ⟨n', s, hle, hstops'⟩ := hdecided _ _ hstays _ ih ⟨_, hid, hlost⟩
    exact max_le ih ((hstops'.le_of_stops hstops).trans hle)

theorem Ticked.departed_lost {e' : Engine Action Key} {ids : List ProposalId} {k : ℕ}
    (hids : e.PendingIds ids) (h : Ticked e e e' now departed reset ids 0 k) {id : ProposalId}
    {p : GovernanceProposal Action} (hstays : e.Stays departed id p)
    (hundecided : ∀ lost n s, LostBefore e now departed reset id lost →
      Stops e p now (departed ++ reset) lost n (some s) →
      ∀ d ∈ departed, d ∉ remaining e.voters ((departed ++ reset).take (max lost n)))
    {d : Did} (hd : d ∈ departed) (hvoter : d ∈ e.voters) : d ∈ (departed ++ reset).take k := by
  have hid : id ∈ ids := (hids.2 id).mpr ⟨p, hstays.held, hstays.pending⟩
  obtain ⟨lost, n, r, hlost, hmax, hstops, -⟩ := h.stays id hid p hstays
  cases r with
  | some s =>
    have hout := hundecided lost n s hlost hstops d hd
    rw [mem_remaining, not_and, not_not] at hout
    exact List.take_subset_take_left _ hmax (hout hvoter)
  | none =>
    have hn := hstops.undecided rfl
    have hk : (departed ++ reset).length ≤ k := by
      rw [← hn]
      exact (le_max_right lost n).trans hmax
    rw [List.take_of_length_le hk]
    exact List.mem_append_left _ hd

theorem exactlyDeparted_of_onlyDepartures {ids : List ProposalId} (context : GovernanceContext)
    (hids : e.PendingIds ids) (h : OnlyDepartures e context.now departed reset) :
    ExactlyDeparted e (processPendingProposals context departed reset ids e).2 departed reset := by
  obtain ⟨k, htick⟩ := tick_spec hids context departed reset
  refine ⟨fun d => ?_, fun id p hp hstatus v hv => ?_⟩
  · rw [htick.engine, mem_remaining]
    refine and_congr_right fun hvoter => not_congr ⟨fun hgone => ?_, fun hd => ?_⟩
    · -- Nobody but a departed voter is removed.
      rcases h.resets with hresets | hdecided
      · by_contra hd
        rcases List.mem_append.mp (List.mem_of_mem_take hgone) with hdep | hreset
        · exact hd hdep
        · exact hresets d hreset hd hvoter
      · obtain ⟨turned, hlost⟩ := htick.lost
        have hk := hlost.le_departed hdecided
        rw [List.take_append_of_le_length hk] at hgone
        exact List.mem_of_mem_take hgone
    · rcases h.departures with hnone | ⟨id, p, hstays, hundecided⟩
      · exact absurd hvoter (hnone d hd)
      · exact htick.departed_lost hids hstays hundecided hd hvoter
  · obtain ⟨q, -, rfl, -, -⟩ := htick.pending_after hids hp hstatus
    rw [GovernanceProposal.mem_without_votes, List.mem_append, not_or] at hv
    exact hv.2

/-- A proposal that `approvals` have approved. -/
def openProposal (proposer : Did) (approvals : List Did) : GovernanceProposal Unit :=
  { proposalId := [0], contextId := "ctx", proposerDid := proposer, action := (),
    status := .pending, createdAt := 0, votingDeadline := 300,
    approvals := approvals.map fun did => ⟨did, .approve, 0, []⟩, rejections := [],
    createdAtEpoch := none }

/-- A unanimity engine with the one proposal. -/
def alone (voters : List Did) (p : GovernanceProposal Unit) : Engine Unit Unit :=
  ⟨.unanimity, voters, 300, fun id => if id = [0] then some p else none, fun _ => some ()⟩

theorem alone_pendingIds {voters : List Did} {p : GovernanceProposal Unit}
    (h : p.status = .pending) : (alone voters p).PendingIds [[0]] := by
  refine ⟨by simp, fun id => ?_⟩
  rw [List.mem_singleton]
  constructor
  · rintro rfl
    exact ⟨p, rfl, h⟩
  · rintro ⟨q, hq, -⟩
    by_contra hid
    simp [alone, hid] at hq

def oneOpen : Engine Unit Unit :=
  alone ["did:a", "did:b", "did:c"] (openProposal "did:a" ["did:a"])

/-- The departure of one of three is taken out at the proposal that waits for the other. -/
theorem departure_of_one : ExactlyDeparted oneOpen
    (processPendingProposals ⟨"ctx", none, 1⟩ ["did:c"] [] [[0]] oneOpen).2 ["did:c"] [] := by
  have hids : oneOpen.PendingIds [[0]] := alone_pendingIds rfl
  apply exactlyDeparted_of_onlyDepartures _ hids
  refine ⟨.inr ⟨[0], openProposal "did:a" ["did:a"], ⟨rfl, rfl, by decide⟩, ?_⟩, .inl (by simp)⟩
  intro lost n s hbefore hstops
  obtain ⟨turned, -, hlost⟩ := hbefore
  have hle : lost ≤ 1 := hlost.le
  have hn : n = 1 := by
    have hle' : n ≤ 1 := hstops.le
    have hne : n ≠ 0 := fun hzero => by cases hstops.nil_of_zero hzero
    omega
  have hnone : oneOpen.tally (openProposal "did:a" ["did:a"]) 1 ["did:c"] ["did:c"] = none := by
    decide +kernel
  have hlast := hstops.last
  rw [hn, max_eq_right hle] at hlast
  rw [show ((["did:c"] ++ [] : List Did).take 1) = ["did:c"] from rfl] at hlast
  rw [hnone] at hlast
  cases hlast

/-- Where no proposal is pending, a departed voter stays eligible. -/
theorem departed_stays_eligible : ¬ ∀ (e : Engine Unit Unit) (context : GovernanceContext)
    (departed reset : List Did) (ids : List ProposalId), e.PendingIds ids →
    ExactlyDeparted e (processPendingProposals context departed reset ids e).2 departed
      reset := by
  intro h
  let e : Engine Unit Unit := ⟨.unanimity, ["did:a", "did:b"], 300, fun _ => none, fun _ => some ()⟩
  have hnone : e.PendingIds [] := by
    refine ⟨by simp, fun id => ?_⟩
    simp [e]
  have hexact := h e ⟨"ctx", none, 1⟩ ["did:b"] [] [] hnone
  have hvoter := (hexact.voters "did:b").mp (by decide)
  exact hvoter.2 (by decide)

/-- A turn of `p` that the tick can come to in some order of the members, `gone`, and of the
pending proposals. -/
structure Turn (e : Engine Action Key) (now : ℕ) (departed reset gone : List Did)
    (p : GovernanceProposal Action) (lost n : ℕ) (r : Option ProposalStatus) : Prop where
  order : ∃ id departed' reset', e.Stays departed id p ∧ departed'.Perm departed ∧
    reset'.Perm reset ∧ gone = departed' ++ reset' ∧ LostBefore e now departed' reset' id lost
  stops : Stops e p now gone lost n r

/-- None of `members` is left in the voter set or in the votes of `p`. -/
structure Out (e : Engine Action Key) (p : GovernanceProposal Action)
    (members lost gone : List Did) : Prop where
  voters : ∀ d ∈ members, d ∉ remaining e.voters lost
  votes : ∀ v ∈ (p.without gone).votes, v.voterDid ∉ members

/-- In any order, a tally of the departures decides a proposal only once all the departed are
out, and decides it as the voters and votes without the departed do; a tally of the resets
decides it only once everyone is out. -/
structure SettledTallies (e : Engine Action Key) (now : ℕ) (departed reset : List Did) :
    Prop where
  departures : ∀ {gone p lost n s}, e.Turn now departed reset gone p lost n (some s) → n ≠ 0 →
    n ≤ departed.length → e.Out p departed (gone.take (max lost n)) (gone.take n) ∧
      e.tally p now departed departed = some s
  passes : ∀ {gone p lost n r}, e.Turn now departed reset gone p lost n r →
    r = none ∨ departed.length < n → departed ≠ [] → e.tally p now departed departed = none
  resets : ∀ {gone p lost n s}, e.Turn now departed reset gone p lost n (some s) →
    departed.length < n → e.Out p (departed ++ reset) (gone.take (max lost n)) (gone.take n)

/-- The tally without the departed, which is taken where somebody has departed. -/
def departureTally (e : Engine Action Key) (p : GovernanceProposal Action) (now : ℕ)
    (departed : List Did) : Option ProposalStatus :=
  if departed = [] then none else e.tally p now departed departed

/-- The proposal after a tick whose tallies are settled. -/
def turnOutcome (e : Engine Action Key) (p : GovernanceProposal Action) (now : ℕ)
    (departed reset : List Did) : GovernanceProposal Action :=
  match e.departureTally p now departed with
  | some s => settled p departed (some s)
  | none => settled p (departed ++ reset) (e.tally p now (departed ++ reset) (departed ++ reset))

open Classical in
/-- The engine after a tick whose tallies are settled, with no order in it. -/
noncomputable def tickOutcome (e : Engine Action Key) (now : ℕ) (departed reset : List Did) :
    Engine Action Key :=
  { e with
    voters :=
      if ∃ id p, e.Stays departed id p ∧ e.departureTally p now departed = none then
        remaining e.voters (departed ++ reset)
      else if ∃ id p, e.Stays departed id p then remaining e.voters departed
      else e.voters
    proposals := fun id => (e.proposals id).map fun p =>
      if p.status = .pending then
        if p.proposerDid ∈ departed then invalidated p else e.turnOutcome p now departed reset
      else p }

theorem Out.remaining_eq {p : GovernanceProposal Action} {members lost gone : List Did}
    (h : e.Out p members lost gone) (hsub : lost ⊆ members) :
    remaining e.voters lost = remaining e.voters members := by
  apply remaining_congr
  intro d hd
  refine ⟨fun hlost => hsub hlost, fun hmem => ?_⟩
  by_contra hlost
  exact h.voters d hmem (mem_remaining.mpr ⟨hd, hlost⟩)

theorem Out.votes_iff {p : GovernanceProposal Action} {members lost gone : List Did}
    (h : e.Out p members lost gone) (hsub : gone ⊆ members) :
    ∀ v ∈ p.votes, v.voterDid ∈ gone ↔ v.voterDid ∈ members := by
  intro v hv
  refine ⟨fun hgone => hsub hgone, fun hmem => ?_⟩
  by_contra hgone
  exact h.votes v (p.mem_without_votes.mpr ⟨hv, hgone⟩) hmem

theorem Out.tally_eq {p : GovernanceProposal Action} {members lost gone : List Did}
    (h : e.Out p members lost gone) (hlost : lost ⊆ members) (hgone : gone ⊆ members) :
    e.tally p now lost gone = e.tally p now members members := by
  rw [tally, tally, h.remaining_eq hlost, p.without_congr (h.votes_iff hgone)]

theorem Out.settled_eq {p : GovernanceProposal Action} {members lost gone : List Did}
    (h : e.Out p members lost gone) (hgone : gone ⊆ members) (r : Option ProposalStatus) :
    settled p gone r = settled p members r := by
  rw [settled, settled, p.without_congr (h.votes_iff hgone)]

section Outcome
variable {gone : List Did} {p : GovernanceProposal Action} {lost n : ℕ}
  {r : Option ProposalStatus}

theorem Turn.perm (hturn : e.Turn now departed reset gone p lost n r) :
    gone.Perm (departed ++ reset) := by
  obtain ⟨id, departed', reset', -, hd, hr, rfl, -⟩ := hturn.order
  exact hd.append hr

theorem Turn.take_subset (hturn : e.Turn now departed reset gone p lost n r) (m : ℕ) :
    gone.take m ⊆ departed ++ reset :=
  fun _ hd => hturn.perm.subset (List.mem_of_mem_take hd)

theorem Turn.take_subset_departed (hturn : e.Turn now departed reset gone p lost n r) {m : ℕ}
    (hm : m ≤ departed.length) : gone.take m ⊆ departed := by
  obtain ⟨id, departed', reset', -, hd, hr, rfl, -⟩ := hturn.order
  rw [← hd.length_eq] at hm
  rw [List.take_append_of_le_length hm]
  exact fun d hmem => hd.subset (List.mem_of_mem_take hmem)

/-- With the whole list gone, everyone is out. -/
theorem Turn.out_of_length (hturn : e.Turn now departed reset gone p lost n r)
    (hn : n = gone.length) :
    e.Out p (departed ++ reset) (gone.take (max lost n)) (gone.take n) := by
  have htake : gone.take (max lost n) = gone := List.take_of_length_le (by omega)
  have htake' : gone.take n = gone := List.take_of_length_le (by omega)
  rw [htake, htake']
  refine ⟨fun d hd hmem => ?_, fun v hv hmem => ?_⟩
  · exact (mem_remaining.mp hmem).2 (hturn.perm.symm.subset hd)
  · exact (p.mem_without_votes.mp hv).2 (hturn.perm.symm.subset hmem)

/-- A turn that the departures decide. -/
theorem SettledTallies.decided (h : SettledTallies e now departed reset)
    (hturn : e.Turn now departed reset gone p lost n r) {s : ProposalStatus}
    (hs : e.departureTally p now departed = some s) :
    n ≤ departed.length ∧ r = some s ∧
      e.Out p departed (gone.take (max lost n)) (gone.take n) := by
  rw [departureTally] at hs
  split_ifs at hs with hdeparted
  have hpasses : ¬ (r = none ∨ departed.length < n) := by
    intro hor
    rw [h.passes hturn hor hdeparted] at hs
    cases hs
  rw [not_or, not_lt] at hpasses
  obtain ⟨hr, hn⟩ := hpasses
  obtain ⟨s', rfl⟩ := Option.ne_none_iff_exists'.mp hr
  have hzero : n ≠ 0 := by
    intro hzero
    have hperm := hturn.perm
    rw [hturn.stops.nil_of_zero hzero] at hperm
    exact hdeparted (List.append_eq_nil_iff.mp (List.nil_perm.mp hperm)).1
  obtain ⟨hout, htally⟩ := h.departures hturn hzero hn
  rw [htally] at hs
  exact ⟨hn, hs, hout⟩

/-- A turn that the departures do not decide. -/
theorem SettledTallies.undecided (h : SettledTallies e now departed reset)
    (hturn : e.Turn now departed reset gone p lost n r)
    (hnone : e.departureTally p now departed = none) :
    e.Out p (departed ++ reset) (gone.take (max lost n)) (gone.take n) := by
  cases r with
  | none => exact hturn.out_of_length (hturn.stops.undecided rfl)
  | some s =>
    by_cases hzero : n = 0
    · apply hturn.out_of_length
      rw [hzero, hturn.stops.nil_of_zero hzero, List.length_nil]
    · by_cases hn : n ≤ departed.length
      · have hdeparted : departed ≠ [] := by
          rintro rfl
          exact hzero (Nat.le_zero.mp hn)
        rw [departureTally, if_neg hdeparted, (h.departures hturn hzero hn).2] at hnone
        cases hnone
      · exact h.resets hturn (not_le.mp hn)

theorem SettledTallies.settled_eq (h : SettledTallies e now departed reset)
    (hturn : e.Turn now departed reset gone p lost n r) :
    settled p (gone.take n) r = e.turnOutcome p now departed reset := by
  cases hs : e.departureTally p now departed with
  | some s =>
    obtain ⟨hn, hr, hout⟩ := h.decided hturn hs
    rw [hr, hout.settled_eq (hturn.take_subset_departed hn), turnOutcome, hs]
  | none =>
    have hout := h.undecided hturn hs
    have hlast := hturn.stops.last
    rw [hout.tally_eq (hturn.take_subset _) (hturn.take_subset _)] at hlast
    rw [hout.settled_eq (hturn.take_subset _), turnOutcome, hs, hlast]

end Outcome

theorem Stays.perm {departed' : List Did} (hd : departed'.Perm departed) {id : ProposalId}
    {p : GovernanceProposal Action} (h : e.Stays departed' id p) : e.Stays departed id p :=
  ⟨h.held, h.pending, fun hmem => h.proposer (hd.symm.subset hmem)⟩

theorem Out.mono {p : GovernanceProposal Action} {members lost lost' gone : List Did}
    (h : e.Out p members lost gone) (hsub : lost ⊆ lost') : e.Out p members lost' gone := by
  refine ⟨fun d hd hmem => ?_, h.votes⟩
  rw [mem_remaining] at hmem
  exact h.voters d hd (mem_remaining.mpr ⟨hmem.1, fun hlost => hmem.2 (hsub hlost)⟩)

section Tick
variable {departed' reset' : List Did} (h : SettledTallies e now departed reset)
  (hd : departed'.Perm departed) (hr : reset'.Perm reset)
include h hd hr

/-- Where the departures decide every proposal, no turn gets to the resets. -/
theorem SettledTallies.lost_le
    (hdecided : ∀ id p, e.Stays departed id p → e.departureTally p now departed ≠ none) {k : ℕ}
    {turned : List ProposalId} (hlost : Lost e now departed' reset' turned k) :
    k ≤ departed.length := by
  induction hlost with
  | start => exact Nat.zero_le _
  | turn hlost hid hstays hstops ih =>
    have hstays' := hstays.perm hd
    obtain ⟨s, hs⟩ := Option.ne_none_iff_exists'.mp (hdecided _ _ hstays')
    have hturn := Turn.mk ⟨_, departed', reset', hstays', hd, hr, rfl, _, hid, hlost⟩ hstops
    exact max_le ih (h.decided hturn hs).1

theorem SettledTallies.voters_eq {e' : Engine Action Key} {ids : List ProposalId} {k : ℕ}
    (hids : e.PendingIds ids) (htick : Ticked e e e' now departed' reset' ids 0 k) :
    remaining e.voters ((departed' ++ reset').take k) =
      (e.tickOutcome now departed reset).voters := by
  -- Every proposal that stays has had its turn, with at most `k` voters lost after it.
  have hturns : ∀ id p, e.Stays departed id p → ∃ lost n r, max lost n ≤ k ∧
      e.Turn now departed reset (departed' ++ reset') p lost n r := by
    intro id p hstays
    have hid : id ∈ ids := (hids.2 id).mpr ⟨p, hstays.held, hstays.pending⟩
    obtain ⟨lost, n, r, hlost, hmax, hstops, -⟩ := htick.stays id hid p (hstays.perm hd.symm)
    exact ⟨lost, n, r, hmax, ⟨id, departed', reset', hstays, hd, hr, rfl, hlost⟩, hstops⟩
  rw [tickOutcome]
  split_ifs with hundecided hsome
  · obtain ⟨id, p, hstays, hnone⟩ := hundecided
    obtain ⟨lost, n, r, hmax, hturn⟩ := hturns id p hstays
    have hout := (h.undecided hturn hnone).mono (List.take_subset_take_left _ hmax)
    exact hout.remaining_eq (hturn.take_subset k)
  · obtain ⟨id, p, hstays⟩ := hsome
    obtain ⟨lost, n, r, hmax, hturn⟩ := hturns id p hstays
    have hdecided : ∀ id p, e.Stays departed id p → e.departureTally p now departed ≠ none :=
      fun id p hstays hnone => hundecided ⟨id, p, hstays, hnone⟩
    obtain ⟨s, hs⟩ := Option.ne_none_iff_exists'.mp (hdecided id p hstays)
    have hout := (h.decided hturn hs).2.2.mono (List.take_subset_take_left _ hmax)
    obtain ⟨turned, hlost⟩ := htick.lost
    exact hout.remaining_eq (hturn.take_subset_departed (h.lost_le hd hr hdecided hlost))
  · have hk : k = 0 := by
      obtain ⟨turned, hlost⟩ := htick.lost
      cases hlost with
      | start => rfl
      | turn _ _ hstays _ => exact absurd ⟨_, _, hstays.perm hd⟩ hsome
    rw [hk, List.take_zero, remaining_nil]

theorem SettledTallies.proposals_eq {e' : Engine Action Key} {ids : List ProposalId} {k : ℕ}
    (hids : e.PendingIds ids) (htick : Ticked e e e' now departed' reset' ids 0 k)
    (id : ProposalId) :
    e'.proposals id = (e.tickOutcome now departed reset).proposals id := by
  rw [tickOutcome]
  by_cases hid : id ∈ ids
  · obtain ⟨p, hp, hstatus⟩ := (hids.2 id).mp hid
    simp only [hp, Option.map_some, if_pos hstatus]
    by_cases hproposer : p.proposerDid ∈ departed
    · rw [if_pos hproposer, htick.departs id hid p hp (hd.symm.subset hproposer)]
    · have hstays : e.Stays departed id p := ⟨hp, hstatus, hproposer⟩
      obtain ⟨lost, n, r, hlost, -, hstops, hsettled⟩ :=
        htick.stays id hid p (hstays.perm hd.symm)
      have hturn := Turn.mk ⟨id, departed', reset', hstays, hd, hr, rfl, hlost⟩ hstops
      rw [if_neg hproposer, hsettled, h.settled_eq hturn]
  · rw [htick.others id hid]
    cases hp : e.proposals id with
    | none => simp only [hp, Option.map_none]
    | some p =>
      have hstatus : p.status ≠ .pending := fun hstatus => hid ((hids.2 id).mpr ⟨p, hp, hstatus⟩)
      simp only [hp, Option.map_some, if_neg hstatus]

end Tick

theorem SettledTallies.tick_eq {context : GovernanceContext}
    (h : SettledTallies e context.now departed reset) {departed' reset' : List Did}
    (hd : departed'.Perm departed) (hr : reset'.Perm reset) {ids : List ProposalId}
    (hids : e.PendingIds ids) :
    (processPendingProposals context departed' reset' ids e).2 =
      e.tickOutcome context.now departed reset := by
  obtain ⟨k, htick⟩ := tick_spec hids context departed' reset'
  rw [htick.engine, h.voters_eq hd hr hids htick]
  have hproposals := funext (h.proposals_eq hd hr hids htick)
  rw [hproposals]
  rfl

/-- A tick whose tallies are settled ends in one state, in whatever order it goes. -/
theorem tick_order_free {context : GovernanceContext}
    (h : SettledTallies e context.now departed reset) {departed' reset' : List Did}
    (hd : departed'.Perm departed) (hr : reset'.Perm reset) {ids ids' : List ProposalId}
    (hids : e.PendingIds ids) (hids' : e.PendingIds ids') :
    (processPendingProposals context departed' reset' ids' e).2 =
      (processPendingProposals context departed reset ids e).2 := by
  rw [h.tick_eq hd hr hids', h.tick_eq (List.Perm.refl _) (List.Perm.refl _) hids]

def fourVoters : Engine Unit Unit :=
  alone ["did:a", "did:b", "did:c", "did:d"] (openProposal "did:a" ["did:a"])

/-- No tally decides a proposal that waits for a voter who stays. -/
theorem fourVoters_tally : ∀ gone ∈ [["did:b", "did:c"], ["did:c", "did:b"]], ∀ i < 3, ∀ j < 3,
    fourVoters.tally (openProposal "did:a" ["did:a"]) 1 (gone.take i) (gone.take j) = none := by
  decide +kernel

theorem fourVoters_turn {gone : List Did} {p : GovernanceProposal Unit} {lost n : ℕ}
    {r : Option ProposalStatus}
    (hturn : fourVoters.Turn 1 ["did:b", "did:c"] [] gone p lost n r) :
    n ≤ 2 ∧ r = none ∧ p = openProposal "did:a" ["did:a"] := by
  obtain ⟨id, departed', reset', hstays, -, -, horder, turned, -, hlost⟩ := hturn.order
  have hp : p = openProposal "did:a" ["did:a"] := by
    have hheld := hstays.held
    simp only [fourVoters, alone] at hheld
    split_ifs at hheld
    exact (Option.some.inj hheld).symm
  have hgone : gone ∈ [["did:b", "did:c"], ["did:c", "did:b"]] := by
    have hmem := List.mem_permutations.mpr hturn.perm
    simpa [List.permutations] using hmem
  have hlength : gone.length = 2 := hturn.perm.length_eq
  have hlost : lost ≤ 2 := by
    rw [← hlength, horder]
    exact hlost.le
  have hn : n ≤ 2 := hturn.stops.le.trans hlength.le
  have hlast := hturn.stops.last
  rw [hp, fourVoters_tally gone hgone (max lost n) (by omega) n (by omega)] at hlast
  exact ⟨hn, hlast.symm, hp⟩

theorem fourVoters_settled : fourVoters.SettledTallies 1 ["did:b", "did:c"] [] where
  departures hturn := by
    cases (fourVoters_turn hturn).2.1
  passes hturn _ _ := by
    rw [(fourVoters_turn hturn).2.2]
    exact fourVoters_tally _ (List.mem_cons_self ..) 2 (by omega) 2 (by omega)
  resets hturn := by
    cases (fourVoters_turn hturn).2.1

/-- Two departures from a proposal that waits for a third voter, in both orders. -/
theorem two_departures_order_free :
    (processPendingProposals ⟨"ctx", none, 1⟩ ["did:c", "did:b"] [] [[0]] fourVoters).2 =
      (processPendingProposals ⟨"ctx", none, 1⟩ ["did:b", "did:c"] [] [[0]] fourVoters).2 :=
  tick_order_free fourVoters_settled (List.Perm.swap ..) (List.Perm.refl _) (alone_pendingIds rfl)
    (alone_pendingIds rfl)

def twoApprovals : Engine Unit Unit :=
  alone ["did:a", "did:b", "did:c"] (openProposal "did:c" ["did:b", "did:c"])

/-- With `a` out first, the approval of `b`, who has departed as well, makes the vote
unanimous; with `b` out first it is gone. -/
theorem departure_order_matters : ¬ ∀ (e : Engine Unit Unit) (context : GovernanceContext)
    (departed departed' reset reset' : List Did) (ids ids' : List ProposalId),
    departed'.Perm departed → reset'.Perm reset → e.PendingIds ids → e.PendingIds ids' →
    (∀ id, (processPendingProposals context departed' reset' ids' e).2.proposals id =
      (processPendingProposals context departed reset ids e).2.proposals id) ∧
    ∀ d, d ∈ (processPendingProposals context departed' reset' ids' e).2.voters ↔
      d ∈ (processPendingProposals context departed reset ids e).2.voters := by
  intro h
  have hids : twoApprovals.PendingIds [[0]] := alone_pendingIds rfl
  have hvoters := (h twoApprovals ⟨"ctx", none, 1⟩ ["did:a", "did:b"] ["did:b", "did:a"] [] []
    [[0]] [[0]] (List.Perm.swap ..) (List.Perm.refl _) hids hids).2 "did:b"
  have hkept : "did:b" ∈ (processPendingProposals ⟨"ctx", none, 1⟩ ["did:a", "did:b"] [] [[0]]
      twoApprovals).2.voters := by
    decide +kernel
  exact absurd (hvoters.mpr hkept) (by decide +kernel)

end ScpCore.Governance.Engine
