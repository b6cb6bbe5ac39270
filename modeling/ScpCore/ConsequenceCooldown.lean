import ScpCore.ConsequenceLeaves

/-! Runs of sweeps and the marks that make a rule rest. A mark belongs to the rule and not to
the member it was enforced on: whether a member who reached a rule is sanctioned depends on
when the rule was last enforced on anyone. -/

namespace ScpCore.Consequence

open Roles (Capability ContextRoleState)

/-- A sweep of a run: the clock, the order of the members, and what reached the log and the
buffer since the sweep before. -/
structure SweepInput (π : Type) where
  clock : Clock
  order : List String
  logged : List (Event π)
  received : List ContextEvent

section Run
variable {π : Type} (codec : Codec π)

def SweepInput.arrive (input : SweepInput π) (cell : Cell π) : Cell π :=
  { cell with
    log := cell.log ++ input.logged
    receiveBuffer := input.received.foldl ReceiveBuffer.push cell.receiveBuffer }

def runSweep (cell : Cell π) (input : SweepInput π) : List Enforcement × Cell π :=
  handleEvaluatePeriodicConsequences codec input.clock input.order (input.arrive cell)

def runSweeps : Cell π → List (SweepInput π) → List Enforcement × Cell π
  | cell, [] => ([], cell)
  | cell, input :: rest =>
    let one := runSweep codec cell input
    let others := runSweeps one.2 rest
    (one.1 ++ others.1, others.2)

/-- Every consequence that a run came to was applied to its member, unless the rule had been
enforced on the same member less than its window before. -/
def FacesOwnAccount (cell : Cell π) (inputs : List (SweepInput π)) : Prop :=
  ∀ earlier e later, (runSweeps codec cell inputs).1 = earlier ++ e :: later →
    e.outcome.sanctioned = true ∨
      ∃ p ∈ earlier, p.memberDid = e.memberDid ∧
        p.consequence.ruleIndex = e.consequence.ruleIndex ∧ p.outcome = .enforced ∧
        ∃ rule, cell.rules[e.consequence.ruleIndex]? = some rule ∧ e.now < p.now+rule.window

/-- The rule may fire: its first mark has passed, and so has its window since each time it
was enforced, on whomever. -/
def Rested (rules : List ConsequenceRule) (first : Cooldowns) (history : List Enforcement)
    (ruleIndex now : ℕ) : Prop :=
  (∀ t, first.mark ruleIndex = some t → t ≤ now) ∧
    ∀ p ∈ history, p.consequence.ruleIndex = ruleIndex → p.outcome = .enforced →
      ∀ rule, rules[ruleIndex]? = some rule → min (p.now+rule.window) u64Max ≤ now

/-- The marks tell which rules may fire. -/
def Tracks (rules : List ConsequenceRule) (first : Cooldowns) (history : List Enforcement)
    (cooldowns : Cooldowns) : Prop :=
  ∀ r now, cooldowns.cooling r now = false ↔ Rested rules first history r now

variable {codec} {rules : List ConsequenceRule} {first cooldowns : Cooldowns}
    {history : List Enforcement}

theorem cooling_eq_false_iff {r now : ℕ} :
    cooldowns.cooling r now = false ↔ ∀ t, cooldowns.mark r = some t → t ≤ now := by
  unfold Cooldowns.cooling
  cases cooldowns.mark r with
  | none => simp
  | some t => simp

theorem tracks_start (rules : List ConsequenceRule) (first : Cooldowns) :
    Tracks rules first [] first := by
  intro r now
  rw [cooling_eq_false_iff]
  constructor
  · intro h
    exact ⟨h, fun p hp => by cases hp⟩
  · exact fun h => h.1

/-- An entry that is not an enforcement leaves the marks as they are. -/
theorem Tracks.snoc_other (h : Tracks rules first history cooldowns) {e : Enforcement}
    (he : e.outcome ≠ .enforced) : Tracks rules first (history ++ [e]) cooldowns := by
  intro r now
  rw [h r now]
  constructor
  · intro hrested
    refine ⟨hrested.1, ?_⟩
    intro p hp hr hp'
    rcases List.mem_append.mp hp with hp | hp
    · exact hrested.2 p hp hr hp'
    · rw [List.mem_singleton.mp hp] at hp'
      exact absurd hp' he
  · intro hrested
    exact ⟨hrested.1, fun p hp => hrested.2 p (List.mem_append_left _ hp)⟩

/-- An enforcement moves the mark of its rule forward: the rule could fire, so every
earlier mark had passed. -/
theorem Tracks.snoc_enforced (h : Tracks rules first history cooldowns) {e : Enforcement}
    (he : e.outcome = .enforced) (hnow : e.now ≤ u64Max)
    (hgate : cooldowns.cooling e.consequence.ruleIndex e.now = false)
    {rule : ConsequenceRule} (hrule : rules[e.consequence.ruleIndex]? = some rule) :
    Tracks rules first (history ++ [e])
      (restAfter rules cooldowns e.consequence.ruleIndex e.now) := by
  intro r now
  by_cases hr : r = e.consequence.ruleIndex
  · subst hr
    have hmark : (restAfter rules cooldowns e.consequence.ruleIndex e.now).mark
        e.consequence.ruleIndex = some (min (e.now+rule.window) u64Max) := by
      rw [restAfter, hrule]
      exact Function.update_self _ _ _
    have hbefore := (h _ _).mp hgate
    rw [cooling_eq_false_iff, hmark]
    constructor
    · intro hpassed
      have hnew : min (e.now+rule.window) u64Max ≤ now := hpassed _ rfl
      have hle : e.now ≤ now := by omega
      refine ⟨fun t ht => (hbefore.1 t ht).trans hle, ?_⟩
      intro p hp hpr hpe rule' hrule'
      rcases List.mem_append.mp hp with hp | hp
      · exact (hbefore.2 p hp hpr hpe rule' hrule').trans hle
      · rw [List.mem_singleton.mp hp, ← Option.some.inj (hrule.symm.trans hrule')]
        exact hnew
    · intro hrested t ht
      rw [← Option.some.inj ht]
      exact hrested.2 e (List.mem_append_right _ List.mem_cons_self) rfl he rule hrule
  · rw [cooling_congr (restAfter_mark_of_ne hr), h r now]
    constructor
    · intro hrested
      refine ⟨hrested.1, ?_⟩
      intro p hp hpr
      rcases List.mem_append.mp hp with hp | hp
      · exact hrested.2 p hp hpr
      · rw [List.mem_singleton.mp hp] at hpr
        exact absurd hpr.symm hr
    · intro hrested
      exact ⟨hrested.1, fun p hp => hrested.2 p (List.mem_append_left _ hp)⟩

/-- The consequence was applied where its rule could fire, to the member and as the rule
says; a failed action was replaced by a suspension of everything. Elsewhere the roles are
as they were. -/
structure Settled (rules : List ConsequenceRule) (first : Cooldowns) (clock : Clock)
    (history : List Enforcement) (e : Enforcement) : Prop where
  now : e.now = clock.now
  sanctioned : e.outcome.sanctioned = true ↔ Rested rules first history e.consequence.ruleIndex e.now
  applied :
    (e.outcome = .cooling ∧ e.rolesAfter = e.rolesBefore) ∨
    (e.outcome = .enforced ∧ dispatchEnforcementAction e.rolesBefore e.memberDid
      e.consequence.action clock.nonce = (true, e.rolesAfter)) ∨
    (e.outcome = .escalated ∧ ∃ roles, dispatchEnforcementAction e.rolesBefore e.memberDid
      e.consequence.action clock.nonce = (false, roles) ∧
        e.rolesAfter = roles.suspendAll e.memberDid)

/-- One consequence, with the marks it leaves. -/
theorem processOneTriggeredConsequence_settled (codec : Codec π) (clock : Clock)
    (rules : List ConsequenceRule) (memberDid : String) (cell : Cell π)
    (consequence : TriggeredConsequence) (hmember : memberDid ∈ cell.membership.dids)
    {rule : ConsequenceRule} (hrule : rules[consequence.ruleIndex]? = some rule)
    (htracks : Tracks rules first history cell.cooldowns) :
    let one := processOneTriggeredConsequence codec clock rules memberDid cell consequence
    let e : Enforcement := ⟨memberDid, clock.now, consequence, one.1, cell.roles, one.2.roles⟩
    Settled rules first clock history e ∧
      Tracks rules first (history ++ [e]) one.2.cooldowns ∧
      one.2.membership = cell.membership ∧ one.2.rules = cell.rules := by
  intro one e
  have hgates := htracks consequence.ruleIndex clock.now
  -- The gate is closed exactly while the rule has not rested since it was last enforced.
  by_cases hgate : cell.cooldowns.cooling consequence.ruleIndex clock.now = true
  · have hone : one = (.cooling, cell) :=
      processOneTriggeredConsequence_cooling codec clock rules memberDid cell consequence hgate
    have houtcome : e.outcome = .cooling := congrArg Prod.fst hone
    have hcell : one.2 = cell := congrArg Prod.snd hone
    have hresting : ¬ Rested rules first history consequence.ruleIndex clock.now := by
      intro hrested
      rw [hgates.mpr hrested] at hgate
      cases hgate
    refine ⟨⟨rfl, ?_, Or.inl ⟨houtcome, congrArg Cell.roles hcell⟩⟩, ?_, ?_, ?_⟩
    · rw [houtcome]
      exact ⟨fun h => absurd h Bool.false_ne_true, fun h => absurd h hresting⟩
    · rw [hcell]
      exact htracks.snoc_other (by rw [houtcome]; decide)
    · rw [hcell]
    · rw [hcell]
  · have hopen : cell.cooldowns.cooling consequence.ruleIndex clock.now = false := by
      simpa using hgate
    have hpassed := processOneTriggeredConsequence_passed codec clock rules memberDid cell
      consequence hopen hmember
    have hrested := hgates.mp hopen
    rcases hpassed.applied with ⟨houtcome, henf, hdispatch⟩ | ⟨houtcome, henf, hdispatch⟩
    · have he : e.outcome = .enforced := houtcome
      refine ⟨⟨rfl, ?_, Or.inr (Or.inl ⟨he, hdispatch⟩)⟩, ?_, hpassed.membership, hpassed.rules⟩
      · rw [he]
        exact ⟨fun _ => hrested, fun _ => rfl⟩
      · rw [hpassed.cooldowns, if_pos henf]
        exact htracks.snoc_enforced he clock.now_le hopen hrule
    · have he : e.outcome = .escalated := houtcome
      refine ⟨⟨rfl, ?_, Or.inr (Or.inr ⟨he, hdispatch⟩)⟩, ?_, hpassed.membership, hpassed.rules⟩
      · rw [he]
        exact ⟨fun _ => hrested, fun _ => rfl⟩
      · rw [hpassed.cooldowns, if_neg (by rw [henf]; exact Bool.false_ne_true)]
        exact htracks.snoc_other (by rw [he]; decide)

/-- What a sweep leaves: its consequences in order, each settled by what came before it. -/
structure SettledAll (rules : List ConsequenceRule) (first : Cooldowns) (clock : Clock)
    (history : List Enforcement) (cell : Cell π) (pairs : List (String × TriggeredConsequence))
    (out : List Enforcement × Cell π) : Prop where
  pairs : out.1.map (fun e => (e.memberDid, e.consequence)) = pairs
  settled : ∀ earlier e later, out.1 = earlier ++ e :: later →
    Settled rules first clock (history ++ earlier) e
  tracks : Tracks rules first (history ++ out.1) out.2.cooldowns
  membership : out.2.membership = cell.membership
  rules : out.2.rules = cell.rules

theorem enforcePairs_settled (codec : Codec π) (clock : Clock) (cell : Cell π)
    (pairs : List (String × TriggeredConsequence))
    (hmembers : ∀ pair ∈ pairs, pair.1 ∈ cell.membership.dids)
    (hrules : ∀ pair ∈ pairs, ∃ rule, rules[pair.2.ruleIndex]? = some rule)
    (htracks : Tracks rules first history cell.cooldowns) :
    SettledAll rules first clock history cell pairs (enforcePairs codec clock rules cell pairs) := by
  induction pairs generalizing cell history with
  | nil =>
    refine ⟨rfl, ?_, ?_, rfl, rfl⟩
    · intro earlier e later h
      exact absurd h.symm (by simp [enforcePairs])
    · simpa [enforcePairs] using htracks
  | cons pair pairs ih =>
    obtain ⟨memberDid, consequence⟩ := pair
    obtain ⟨rule, hrule⟩ := hrules _ List.mem_cons_self
    obtain ⟨hone, htracks', hmembership, hkept⟩ := processOneTriggeredConsequence_settled codec clock
      rules memberDid cell consequence (hmembers _ List.mem_cons_self) hrule htracks
    have hrest := ih _ (by rw [hmembership]; exact fun p hp => hmembers p (List.mem_cons_of_mem _ hp))
      (fun p hp => hrules p (List.mem_cons_of_mem _ hp)) htracks'
    refine ⟨?_, ?_, ?_, hrest.membership.trans hmembership, hrest.rules.trans hkept⟩
    · rw [enforcePairs, List.map_cons, hrest.pairs]
    · intro earlier e later h
      rw [enforcePairs] at h
      -- The first entry, or one of those after it.
      cases earlier with
      | nil =>
        injection h with he
        rw [List.append_nil, ← he]
        exact hone
      | cons x earlier =>
        injection h with hx hlater
        have hsettled := hrest.settled earlier e later hlater
        rwa [List.append_assoc, hx] at hsettled
    · have hlast := hrest.tracks
      rwa [List.append_assoc] at hlast

theorem triggeredFor_rule {clock : Clock} {cell : Cell π} {memberDid : String}
    {consequence : TriggeredConsequence}
    (h : consequence ∈ triggeredFor codec clock cell memberDid) :
    ∃ rule, cell.rules[consequence.ruleIndex]? = some rule := by
  obtain ⟨r, hr, hsome⟩ := List.mem_filterMap.mp h
  rw [((evaluateRule_eq_some_iff _ _ _ _ _ _ _ _).mp hsome).2]
  exact ⟨r.1, (isDurable_of_mem_zipIdx hr).1⟩

theorem runSweep_settled (codec : Codec π) (cell : Cell π) (input : SweepInput π)
    (horder : input.order.Perm cell.membership.dids)
    (htracks : Tracks cell.rules first history cell.cooldowns) :
    SettledAll cell.rules first input.clock history cell
      (sweepPairs codec input.clock input.order (input.arrive cell))
      (runSweep codec cell input) := by
  have hsettled := enforcePairs_settled codec input.clock (input.arrive cell)
    (sweepPairs codec input.clock input.order (input.arrive cell))
    (fun pair hpair => horder.mem_iff.mp (mem_sweepPairs hpair).1)
    (fun pair hpair => triggeredFor_rule (mem_sweepPairs hpair).2) htracks
  rw [runSweep, handleEvaluatePeriodicConsequences_eq]
  exact ⟨hsettled.pairs, hsettled.settled, hsettled.tracks, hsettled.membership, hsettled.rules⟩

/-- Over a run, the marks tell of the whole history. -/
theorem runSweeps_tracks (codec : Codec π) (cell : Cell π) (inputs : List (SweepInput π))
    (horders : ∀ input ∈ inputs, input.order.Perm cell.membership.dids)
    (htracks : Tracks cell.rules first history cell.cooldowns) :
    Tracks cell.rules first (history ++ (runSweeps codec cell inputs).1)
        (runSweeps codec cell inputs).2.cooldowns ∧
      (runSweeps codec cell inputs).2.membership = cell.membership ∧
      (runSweeps codec cell inputs).2.rules = cell.rules := by
  induction inputs generalizing cell history with
  | nil => exact ⟨by simpa [runSweeps] using htracks, rfl, rfl⟩
  | cons input inputs ih =>
    have hone := runSweep_settled codec cell input (horders _ List.mem_cons_self) htracks
    obtain ⟨hlast, hmembership, hrules⟩ := ih (runSweep codec cell input).2
      (by rw [hone.membership]; exact fun i hi => horders i (List.mem_cons_of_mem _ hi))
      (by rw [hone.rules]; exact hone.tracks)
    rw [hone.rules, List.append_assoc] at hlast
    exact ⟨hlast, hmembership.trans hone.membership, hrules.trans hone.rules⟩

/-- In every sweep of every run, each rule that the evaluation returns for a member is
applied to that member exactly where the rule may fire: its mark of the start has passed,
and so has its window since it was last enforced on anyone. -/
theorem sanctioned_iff_rule_rested (codec : Codec π) (cell : Cell π)
    (before : List (SweepInput π)) (input : SweepInput π)
    (horders : ∀ i ∈ before ++ [input], i.order.Perm cell.membership.dids) :
    (runSweep codec (runSweeps codec cell before).2 input).1.map
        (fun e => (e.memberDid, e.consequence)) =
      sweepPairs codec input.clock input.order (input.arrive (runSweeps codec cell before).2) ∧
    ∀ earlier e later,
      (runSweep codec (runSweeps codec cell before).2 input).1 = earlier ++ e :: later →
      Settled cell.rules cell.cooldowns input.clock ((runSweeps codec cell before).1 ++ earlier) e := by
  obtain ⟨htracks, hmembership, hrules⟩ := runSweeps_tracks codec cell before
    (fun i hi => horders i (List.mem_append_left _ hi)) (tracks_start cell.rules cell.cooldowns)
  have horder : input.order.Perm (runSweeps codec cell before).2.membership.dids := by
    rw [hmembership]
    exact horders input (List.mem_append_right _ List.mem_cons_self)
  rw [List.nil_append, ← hrules] at htracks
  have hsweep := runSweep_settled codec _ input horder htracks
  refine ⟨hsweep.pairs, ?_⟩
  rw [← hrules]
  exact hsweep.settled

end Run

-- Both members were warned; the rule is enforced on the first and rests for the second.

def sampleSweep : SweepInput (Option ConsequencePayload) :=
  ⟨clockAt 1100 (by decide), ["alice", "bob"], [], []⟩

theorem second_offender_passed_over :
    ¬ FacesOwnAccount sampleCodec (sampleCell ["alice", "bob"] Cooldowns.none) [sampleSweep] := by
  have hrun : (runSweeps sampleCodec (sampleCell ["alice", "bob"] Cooldowns.none)
      [sampleSweep]).1.map (fun e => (e.memberDid, e.outcome)) =
        [("alice", .enforced), ("bob", .cooling)] := by
    decide +kernel
  obtain ⟨a, rest, hlist, ha, hrest⟩ := List.map_eq_cons_iff.mp hrun
  obtain ⟨b, rest', rfl, hb, hrest'⟩ := List.map_eq_cons_iff.mp hrest
  rw [List.map_eq_nil_iff.mp hrest'] at hlist
  simp only [Prod.mk.injEq] at ha hb
  intro h
  rcases h [a] b [] hlist with hsanctioned | ⟨p, hp, hmember, -⟩
  · rw [hb.2] at hsanctioned
    cases hsanctioned
  · rw [List.mem_singleton.mp hp, ha.1, hb.1] at hmember
    revert hmember
    decide

/-- In the sample run the rule rests for the second member, as it was enforced on the
first. -/
theorem sanctioned_iff_rule_rested_sample :
    (runSweep sampleCodec (sampleCell ["alice", "bob"] Cooldowns.none) sampleSweep).1.map
        (fun e => (e.memberDid, e.consequence)) =
      sweepPairs sampleCodec sampleSweep.clock sampleSweep.order
        (sampleSweep.arrive (sampleCell ["alice", "bob"] Cooldowns.none)) ∧
    (runSweep sampleCodec (sampleCell ["alice", "bob"] Cooldowns.none) sampleSweep).1.map
      (fun e => (e.memberDid, e.outcome)) = [("alice", .enforced), ("bob", .cooling)] :=
  ⟨(sanctioned_iff_rule_rested sampleCodec (sampleCell ["alice", "bob"] Cooldowns.none) []
    sampleSweep (by
      intro i hi
      rw [List.mem_singleton.mp hi]
      exact List.Perm.refl _)).1, by decide +kernel⟩

end ScpCore.Consequence
