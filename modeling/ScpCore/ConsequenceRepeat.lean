import ScpCore.ConsequenceCooldown

/-! How often a rule is enforced over a run of sweeps that finds nothing new in the log. The
evidence does not age, as the newest leaf is the end of its window, and the leaves of a sweep are
evidence for the next; it is the rest of a rule after each enforcement, by the local clock, that
bounds how often it comes again. -/

namespace ScpCore.Consequence

open Roles (Capability ContextRoleState)

theorem length_le_of_apart {first last w : ℕ} {times : List ℕ} (hw : 0 < w)
    (hapart : times.Pairwise (fun t t' => t+w ≤ t')) (hfirst : ∀ t ∈ times, first ≤ t)
    (hlast : ∀ t ∈ times, t ≤ last) : times.length ≤ (last-first)/w+1 := by
  induction times generalizing first with
  | nil => exact Nat.zero_le _
  | cons t rest ih =>
    rw [List.pairwise_cons] at hapart
    rw [List.forall_mem_cons] at hfirst hlast
    cases rest with
    | nil => exact Nat.le_add_left _ _
    -- The second time is a window after the first, so the others lie in one window less.
    | cons t' rest =>
      have hgap := hapart.1 t' List.mem_cons_self
      have hend := hlast.2 t' List.mem_cons_self
      have hrest := @ih (t+w) hapart.2 hapart.1 hlast.2
      have hstep : (last-(t+w))/w+1 = (last-t)/w := by
        rw [← Nat.sub_sub, ← Nat.add_div_right _ hw]
        congr 1
        omega
      have hmono : (last-t)/w ≤ (last-first)/w := Nat.div_le_div_right (by omega)
      rw [List.length_cons]
      omega

/-- Counts by a key, summed over some of the keys. -/
theorem sum_countP_key {α : Type} (keys : Finset ℕ) (key : α → ℕ) (p : α → Bool) (l : List α) :
    ∑ k ∈ keys, l.countP (fun a => p a && decide (key a = k)) =
      l.countP (fun a => p a && decide (key a ∈ keys)) := by
  induction l with
  | nil => simp
  | cons a l ih =>
    simp only [List.countP_cons, Finset.sum_add_distrib, ih]
    congr 1
    cases p a
    · simp
    · by_cases hmem : key a ∈ keys
      · simp [hmem]
      · simp [hmem]

theorem pairwise_of_splits {α : Type} {R : α → α → Prop} {l : List α}
    (h : ∀ earlier e later, l = earlier ++ e :: later → ∀ p ∈ earlier, R p e) : l.Pairwise R := by
  induction l with
  | nil => exact List.Pairwise.nil
  | cons a l ih =>
    refine List.Pairwise.cons ?_ (ih ?_)
    · intro b hb
      obtain ⟨earlier, later, rfl⟩ := List.append_of_mem hb
      exact h (a :: earlier) b later rfl a List.mem_cons_self
    · intro earlier e later hl p hp
      exact h (a :: earlier) e later (by rw [hl]; rfl) p (List.mem_cons_of_mem a hp)

/-- How many leaves a consequence adds to the log, by what became of it. -/
def leafCount (rules : List ConsequenceRule) (e : Enforcement) : ℕ :=
  if isDurable rules e.consequence.ruleIndex then
    match e.outcome with
    | .enforced => 2
    | .escalated => 3
    | .cooling | .ghost | .absent => 0
  else 0

section Run
variable {π : Type} {codec : Codec π} {rules : List ConsequenceRule} {roles : ContextRoleState}

theorem leavesOf_length (cell : Cell π) (memberDid : String) (consequence : TriggeredConsequence) :
    (leavesOf codec cell.roles rules memberDid consequence).length =
      if isDurable rules consequence.ruleIndex then
        if enforceable cell.roles memberDid consequence.action then 2 else 3
      else 0 := by
  rw [leavesOf]
  split_ifs <;> rfl

/-- What a list of consequences leaves: the leaves are counted by the outcomes, and an action
fails only where it cannot be enforced from the start. -/
structure Accounted (rules : List ConsequenceRule) (roles : ContextRoleState) (cell : Cell π)
    (out : List Enforcement × Cell π) : Prop where
  log : out.2.log.length = cell.log.length + (out.1.map (leafCount rules)).sum
  standing : SameStanding roles out.2.roles
  membership : out.2.membership = cell.membership
  rules : out.2.rules = cell.rules
  failed : ∀ e ∈ out.1, e.outcome = .escalated →
    enforceable roles e.memberDid e.consequence.action = false

theorem Accounted.append {cell : Cell π} {one others : List Enforcement × Cell π}
    (h : Accounted rules roles cell one) (h' : Accounted rules roles one.2 others) :
    Accounted rules roles cell (one.1 ++ others.1, others.2) := by
  refine ⟨?_, h'.standing, h'.membership.trans h.membership, h'.rules.trans h.rules, ?_⟩
  · rw [h'.log, h.log, List.map_append, List.sum_append, Nat.add_assoc]
  · intro e he
    rcases List.mem_append.mp he with hone | hother
    · exact h.failed e hone
    · exact h'.failed e hother

theorem processOneTriggeredConsequence_accounted (codec : Codec π) (clock : Clock)
    (memberDid : String) (cell : Cell π) (consequence : TriggeredConsequence)
    (hmember : memberDid ∈ cell.membership.dids) (hstanding : SameStanding roles cell.roles) :
    let one := processOneTriggeredConsequence codec clock rules memberDid cell consequence
    Accounted rules roles cell
      ([⟨memberDid, clock.now, consequence, one.1, cell.roles, one.2.roles⟩], one.2) := by
  intro one
  by_cases hgate : cell.cooldowns.cooling consequence.ruleIndex clock.now = true
  -- A rule that rests leaves the cell as it is.
  · have hone : one = (.cooling, cell) :=
      processOneTriggeredConsequence_cooling codec clock rules memberDid cell consequence hgate
    rw [hone]
    refine ⟨?_, hstanding, rfl, rfl, ?_⟩
    · simp [leafCount]
    · intro e he hout
      rw [List.mem_singleton.mp he] at hout
      cases hout
  · have hpassed := processOneTriggeredConsequence_passed codec clock rules memberDid cell
      consequence (by simpa using hgate) hmember
    have hlog : one.2.log.length = cell.log.length +
        (leavesOf codec cell.roles rules memberDid consequence).length := by
      have hleaves := congrArg List.length hpassed.leaves
      rwa [List.length_map, List.length_append, List.length_map] at hleaves
    rw [leavesOf_length] at hlog
    refine ⟨?_, hstanding.trans hpassed.standing, hpassed.membership, hpassed.rules, ?_⟩
    · rw [hlog, List.map_singleton, List.sum_singleton, leafCount]
      rcases hpassed.applied with ⟨hout, henf, _⟩ | ⟨hout, henf, _⟩
      · rw [henf, show one.1 = .enforced from hout]
        rfl
      · rw [henf, show one.1 = .escalated from hout]
        rfl
    · intro e he hout
      rw [List.mem_singleton.mp he] at hout ⊢
      rcases hpassed.applied with ⟨hout', _, _⟩ | ⟨_, henf, _⟩
      · rw [show one.1 = .enforced from hout'] at hout
        cases hout
      · rwa [hstanding.enforceable] at henf

theorem enforcePairs_accounted (codec : Codec π) (clock : Clock) (cell : Cell π)
    (pairs : List (String × TriggeredConsequence))
    (hmembers : ∀ pair ∈ pairs, pair.1 ∈ cell.membership.dids)
    (hstanding : SameStanding roles cell.roles) :
    Accounted rules roles cell (enforcePairs codec clock rules cell pairs) := by
  induction pairs generalizing cell with
  | nil =>
    refine ⟨rfl, hstanding, rfl, rfl, ?_⟩
    intro e he
    cases he
  | cons pair pairs ih =>
    obtain ⟨memberDid, consequence⟩ := pair
    have hone := @processOneTriggeredConsequence_accounted _ rules roles codec clock memberDid
      cell consequence (hmembers _ List.mem_cons_self) hstanding
    have hrest := ih _ (by
      rw [hone.membership]
      exact fun p hp => hmembers p (List.mem_cons_of_mem _ hp)) hone.standing
    exact hone.append hrest

theorem runSweep_accounted (codec : Codec π) (cell : Cell π) (input : SweepInput π)
    (horder : input.order.Perm cell.membership.dids) (hquiet : input.logged = [])
    (hstanding : SameStanding roles cell.roles) :
    Accounted cell.rules roles cell (runSweep codec cell input) := by
  have haccounted := @enforcePairs_accounted _ cell.rules roles codec input.clock
    (input.arrive cell) (sweepPairs codec input.clock input.order (input.arrive cell))
    (fun pair hpair => horder.mem_iff.mp (mem_sweepPairs hpair).1) hstanding
  rw [runSweep, handleEvaluatePeriodicConsequences_eq]
  refine ⟨?_, haccounted.standing, haccounted.membership, haccounted.rules, haccounted.failed⟩
  have hlog : (input.arrive cell).log = cell.log := by
    rw [SweepInput.arrive, hquiet, List.append_nil]
  have hsum := haccounted.log
  rwa [hlog] at hsum

theorem runSweeps_accounted (codec : Codec π) (cell : Cell π) (inputs : List (SweepInput π))
    (horders : ∀ input ∈ inputs, input.order.Perm cell.membership.dids)
    (hquiet : ∀ input ∈ inputs, input.logged = []) (hstanding : SameStanding roles cell.roles) :
    Accounted cell.rules roles cell (runSweeps codec cell inputs) := by
  induction inputs generalizing cell with
  | nil =>
    refine ⟨rfl, hstanding, rfl, rfl, ?_⟩
    intro e he
    cases he
  | cons input inputs ih =>
    rw [List.forall_mem_cons] at horders hquiet
    have hone := runSweep_accounted codec cell input horders.1 hquiet.1 hstanding
    have hrest := ih (runSweep codec cell input).2 (by rw [hone.membership]; exact horders.2)
      hquiet.2 hone.standing
    rw [hone.rules] at hrest
    exact hone.append hrest

theorem append_eq_split {α : Type} {one others earlier later : List α} {e : α}
    (h : one ++ others = earlier ++ e :: later) :
    (∃ rest, one = earlier ++ e :: rest) ∨
      ∃ earlier', earlier = one ++ earlier' ∧ others = earlier' ++ e :: later := by
  rcases List.append_eq_append_iff.mp h with ⟨mid, rfl, hothers⟩ | ⟨mid, rfl, hmid⟩
  · exact Or.inr ⟨mid, rfl, hothers⟩
  · cases mid with
    | nil => exact Or.inr ⟨[], by simp, by simpa using hmid.symm⟩
    | cons x mid =>
      injection hmid with hx _
      exact Or.inl ⟨mid, by rw [hx]⟩

/-- A consequence that is applied in a run finds its rule rested, and is a rule's for a member. -/
structure RunEntry (cell : Cell π) (inputs : List (SweepInput π)) (e : Enforcement) : Prop where
  now : ∃ input ∈ inputs, e.now = input.clock.now
  member : e.memberDid ∈ cell.membership.dids
  rule : ∃ rule, cell.rules[e.consequence.ruleIndex]? = some rule ∧
    e.consequence.action = rule.action

theorem triggeredFor_action {clock : Clock} {cell : Cell π} {memberDid : String}
    {consequence : TriggeredConsequence}
    (h : consequence ∈ triggeredFor codec clock cell memberDid) :
    ∃ rule, cell.rules[consequence.ruleIndex]? = some rule ∧ consequence.action = rule.action := by
  obtain ⟨r, hr, hsome⟩ := List.mem_filterMap.mp h
  rw [((evaluateRule_eq_some_iff _ _ _ _ _ _ _ _).mp hsome).2]
  exact ⟨r.1, (isDurable_of_mem_zipIdx hr).1, rfl⟩

theorem runSweeps_entries (codec : Codec π) {first : Cooldowns} {history : List Enforcement}
    (cell : Cell π) (inputs : List (SweepInput π))
    (horders : ∀ input ∈ inputs, input.order.Perm cell.membership.dids)
    (htracks : Tracks cell.rules first history cell.cooldowns) {earlier later : List Enforcement}
    {e : Enforcement} (hrun : (runSweeps codec cell inputs).1 = earlier ++ e :: later) :
    RunEntry cell inputs e ∧ (e.outcome.sanctioned = true →
      Rested cell.rules first (history ++ earlier) e.consequence.ruleIndex e.now) := by
  -- The entry is of the first sweep, or of a later one with this sweep in its history.
  induction inputs generalizing cell history earlier with
  | nil => exact absurd hrun.symm (by simp [runSweeps])
  | cons input inputs ih =>
    have hone := runSweep_settled codec cell input (horders _ List.mem_cons_self) htracks
    have happ : (runSweep codec cell input).1 ++
        (runSweeps codec (runSweep codec cell input).2 inputs).1 = earlier ++ e :: later := by
      rw [← hrun, runSweeps]
    rcases append_eq_split happ with ⟨rest, hnow⟩ | ⟨earlier', rfl, hlater⟩
    · have hsettled := hone.settled earlier e rest hnow
      have hpair : (e.memberDid, e.consequence) ∈
          sweepPairs codec input.clock input.order (input.arrive cell) := by
        rw [← hone.pairs, hnow]
        exact List.mem_map_of_mem (List.mem_append_right _ List.mem_cons_self)
      obtain ⟨hmember, htriggered⟩ := mem_sweepPairs hpair
      have hrule := triggeredFor_action htriggered
      have hdid := (horders _ List.mem_cons_self).mem_iff.mp hmember
      exact ⟨⟨⟨input, List.mem_cons_self, hsettled.now⟩, hdid, hrule⟩, hsettled.sanctioned.mp⟩
    · have hrest := ih (runSweep codec cell input).2
        (by rw [hone.membership]; exact fun i hi => horders i (List.mem_cons_of_mem _ hi))
        (by rw [hone.rules]; exact hone.tracks) hlater
      obtain ⟨⟨⟨later, hmem, hnow⟩, hmember, hrule⟩, hrested⟩ := hrest
      rw [hone.rules] at hrule hrested
      rw [hone.membership] at hmember
      rw [List.append_assoc] at hrested
      exact ⟨⟨⟨later, List.mem_cons_of_mem _ hmem, hnow⟩, hmember, hrule⟩, hrested⟩

/-- The rest of a rule after an enforcement. -/
def windowOf (rules : List ConsequenceRule) (ruleIndex : ℕ) : ℕ :=
  (rules[ruleIndex]?.map ConsequenceRule.window).getD 0

/-- The rules whose consequences are kept in the log. -/
def durableRules (rules : List ConsequenceRule) : Finset ℕ :=
  (Finset.range rules.length).filter (fun r => isDurable rules r = true)

/-- How often a rule was enforced, on whomever. -/
def enforcedCount (run : List Enforcement) (ruleIndex : ℕ) : ℕ :=
  run.countP (fun e => decide (e.outcome = .enforced) &&
    decide (e.consequence.ruleIndex = ruleIndex))

/-- Each durable rule is enforced on each member at most once. -/
def SanctionsOnce (codec : Codec π) (cell : Cell π) (inputs : List (SweepInput π)) : Prop :=
  ∀ memberDid r, isDurable cell.rules r = true →
    enforcedCount ((runSweeps codec cell inputs).1.filter (fun e => e.memberDid = memberDid)) r ≤ 1

/-- A rule that was enforced is not applied again before its window has passed. -/
def RestsBetween (rules : List ConsequenceRule) (run : List Enforcement) : Prop :=
  run.Pairwise (fun p e => p.outcome = .enforced → e.outcome.sanctioned = true →
    p.consequence.ruleIndex = e.consequence.ruleIndex →
    ∀ rule, rules[e.consequence.ruleIndex]? = some rule → min (p.now+rule.window) u64Max ≤ e.now)

theorem windowOf_eq {r : ℕ} {rule : ConsequenceRule} (h : rules[r]? = some rule) :
    windowOf rules r = rule.window := by
  rw [windowOf, h]
  rfl

theorem mem_durableRules_iff {r : ℕ} : r ∈ durableRules rules ↔ isDurable rules r = true := by
  rw [durableRules, Finset.mem_filter, Finset.mem_range]
  refine ⟨fun h => h.2, fun h => ⟨?_, h⟩⟩
  by_contra hout
  rw [isDurable, List.getElem?_eq_none (Nat.le_of_not_lt hout)] at h
  cases h

theorem runSweeps_rests (codec : Codec π) (cell : Cell π) (inputs : List (SweepInput π))
    (horders : ∀ input ∈ inputs, input.order.Perm cell.membership.dids) :
    RestsBetween cell.rules (runSweeps codec cell inputs).1 := by
  apply pairwise_of_splits
  intro earlier e later hrun p hp henforced hsanctioned hsame rule hrule
  have hrested := (runSweeps_entries codec cell inputs horders
    (tracks_start cell.rules cell.cooldowns) hrun).2 hsanctioned
  exact hrested.2 p hp hsame henforced rule hrule

/-- The times at which a rule is enforced are a window apart, so a span of time holds few. -/
theorem RestsBetween.enforcedCount_le {run : List Enforcement} {first last r : ℕ}
    (h : RestsBetween rules run) (hwindow : 0 < windowOf rules r)
    (hspan : ∀ e ∈ run, first ≤ e.now ∧ e.now ≤ last) (hlast : last < u64Max) :
    enforcedCount run r ≤ (last-first)/windowOf rules r+1 := by
  let ofRule : Enforcement → Bool := fun e => decide (e.outcome = .enforced) &&
    decide (e.consequence.ruleIndex = r)
  obtain ⟨rule, hrule⟩ : ∃ rule, rules[r]? = some rule := by
    by_contra hnone
    have hwindow' : windowOf rules r = 0 := by
      rw [windowOf, Option.eq_none_iff_forall_ne_some.mpr (fun rule hr => hnone ⟨rule, hr⟩)]
      rfl
    omega
  have hwindow' := windowOf_eq hrule
  have hof : ∀ e ∈ run.filter ofRule,
      e ∈ run ∧ e.outcome = .enforced ∧ e.consequence.ruleIndex = r := by
    intro e he
    rw [List.mem_filter] at he
    simpa [ofRule] using he
  -- Below the end of the clock the rest does not saturate.
  have hapart : ((run.filter ofRule).map Enforcement.now).Pairwise
      (fun t t' => t+windowOf rules r ≤ t') := by
    rw [List.pairwise_map]
    refine (h.filter ofRule).imp_of_mem ?_
    intro p e hp he hrests
    obtain ⟨-, hpenf, hprule⟩ := hof p hp
    obtain ⟨he', heenf, herule⟩ := hof e he
    have hmin := hrests hpenf (by rw [heenf]; rfl) (hprule.trans herule.symm) rule
      (by rw [herule]; exact hrule)
    have hend := (hspan e he').2
    rw [hwindow']
    omega
  have hlength := length_le_of_apart hwindow hapart
    (List.forall_mem_map.mpr fun e he => (hspan e (hof e he).1).1)
    (List.forall_mem_map.mpr fun e he => (hspan e (hof e he).1).2)
  rwa [List.length_map, ← List.countP_eq_length_filter] at hlength

/-- Where nothing fails, the leaves are two for each enforcement of a durable rule. -/
theorem sum_leafCount (run : List Enforcement) (hnone : ∀ e ∈ run,
      isDurable rules e.consequence.ruleIndex = true → e.outcome ≠ .escalated) :
    (run.map (leafCount rules)).sum = 2 * ∑ r ∈ durableRules rules, enforcedCount run r := by
  have hcount : (run.map (leafCount rules)).sum = 2 * run.countP (fun e =>
      decide (e.outcome = .enforced) && decide (e.consequence.ruleIndex ∈ durableRules rules)) := by
    induction run with
    | nil => rfl
    | cons e run ih =>
      rw [List.forall_mem_cons] at hnone
      rw [List.map_cons, List.sum_cons, ih hnone.2, List.countP_cons, leafCount]
      by_cases hdurable : isDurable rules e.consequence.ruleIndex = true
      · have hmem := mem_durableRules_iff.mpr hdurable
        have hout := hnone.1 hdurable
        cases houtcome : e.outcome with
        | escalated => exact absurd houtcome hout
        | enforced =>
          simp [hdurable, hmem]
          omega
        | _ => simp [hdurable]
      · have hmem : e.consequence.ruleIndex ∉ durableRules rules :=
          fun h => hdurable (mem_durableRules_iff.mp h)
        simp [hdurable, hmem]
  rw [hcount, ← sum_countP_key]
  rfl

/-- In every run of sweeps a rule that was enforced rests for its window, on whomever it was
enforced. So it is enforced at most once a window, and the leaves of a run that finds nothing
new in the log are bounded by the time it spans, not by the number of its sweeps. -/
theorem rule_enforced_once_a_window (codec : Codec π) (cell : Cell π)
    (inputs : List (SweepInput π))
    (horders : ∀ input ∈ inputs, input.order.Perm cell.membership.dids)
    (hquiet : ∀ input ∈ inputs, input.logged = []) :
    RestsBetween cell.rules (runSweeps codec cell inputs).1 ∧
    ∀ first last, (∀ input ∈ inputs, first ≤ input.clock.now ∧ input.clock.now ≤ last) →
      last < u64Max →
      (∀ r, 0 < windowOf cell.rules r →
        enforcedCount (runSweeps codec cell inputs).1 r ≤ (last-first)/windowOf cell.rules r+1) ∧
      ((∀ rule ∈ cell.rules, isConvergentTrigger rule.trigger = true → 0 < rule.window ∧
          ∀ memberDid ∈ cell.membership.dids,
            enforceable cell.roles memberDid rule.action = true) →
        (runSweeps codec cell inputs).2.log.length ≤ cell.log.length +
          2 * ∑ r ∈ durableRules cell.rules, ((last-first)/windowOf cell.rules r+1)) := by
  have hrests := runSweeps_rests codec cell inputs horders
  have hentry : ∀ e ∈ (runSweeps codec cell inputs).1, RunEntry cell inputs e := by
    intro e he
    obtain ⟨earlier, later, hrun⟩ := List.append_of_mem he
    exact (runSweeps_entries codec cell inputs horders
      (tracks_start cell.rules cell.cooldowns) hrun).1
  refine ⟨hrests, ?_⟩
  intro first last hspan hlast
  have hspan' : ∀ e ∈ (runSweeps codec cell inputs).1, first ≤ e.now ∧ e.now ≤ last := by
    intro e he
    obtain ⟨input, hinput, hnow⟩ := (hentry e he).now
    rw [hnow]
    exact hspan input hinput
  have hcounts := fun r (hr : 0 < windowOf cell.rules r) =>
    hrests.enforcedCount_le hr hspan' hlast
  refine ⟨hcounts, ?_⟩
  intro hlawful
  have haccounted := runSweeps_accounted codec cell inputs horders hquiet
    (SameStanding.refl cell.roles)
  have hworks : ∀ e ∈ (runSweeps codec cell inputs).1,
      isDurable cell.rules e.consequence.ruleIndex = true → e.outcome ≠ .escalated := by
    intro e he hdurable hfailed
    -- The action of a durable rule can be enforced, so it does not fail.
    obtain ⟨rule, hrule, haction⟩ := (hentry e he).rule
    rw [isDurable, hrule, Option.any_some] at hdurable
    have hcan := (hlawful rule (List.mem_of_getElem? hrule) hdurable).2 _ (hentry e he).member
    rw [← haction, haccounted.failed e he hfailed] at hcan
    cases hcan
  have hwindows : ∀ r ∈ durableRules cell.rules, 0 < windowOf cell.rules r := by
    intro r hr
    have hdurable := mem_durableRules_iff.mp hr
    rw [isDurable, Option.any_eq_true] at hdurable
    obtain ⟨rule, hrule, htrigger⟩ := hdurable
    rw [windowOf_eq hrule]
    exact (hlawful rule (List.mem_of_getElem? hrule) htrigger).1
  calc (runSweeps codec cell inputs).2.log.length
      = cell.log.length +
          2 * ∑ r ∈ durableRules cell.rules, enforcedCount (runSweeps codec cell inputs).1 r := by
        rw [haccounted.log, sum_leafCount _ hworks]
    _ ≤ cell.log.length +
          2 * ∑ r ∈ durableRules cell.rules, ((last-first)/windowOf cell.rules r+1) := by
        apply Nat.add_le_add_left
        apply Nat.mul_le_mul_left
        apply Finset.sum_le_sum
        intro r hr
        exact hcounts r (hwindows r hr)

end Run

-- Alice was warned once. The rule is enforced on her at 1100, and again a minute later: the
-- warning is still evidence, and by then so are the leaves of the first sweep.

def sweepAt (now : ℕ) (h : now ≤ u64Max) : SweepInput (Option ConsequencePayload) :=
  ⟨clockAt now h, ["alice", "bob"], [], []⟩

theorem firstSweep_le : 1100 ≤ u64Max := by decide

def repeatedSweeps : List (SweepInput (Option ConsequencePayload)) :=
  [sweepAt 1100 firstSweep_le, sweepAt 1130 (by decide), sweepAt 1160 (by decide)]

theorem same_warning_enforced_twice :
    (∀ input ∈ repeatedSweeps, input.logged = []) ∧
      (repeatedSweeps.map (fun input => input.clock.now)).Pairwise (· ≤ ·) ∧
      (runSweeps sampleCodec (sampleCell ["alice"] Cooldowns.none) repeatedSweeps).1.map
        (fun e => (e.memberDid, e.consequence.ruleIndex, e.outcome)) =
          [("alice", 0, .enforced), ("alice", 0, .cooling), ("alice", 0, .enforced)] ∧
      ¬ SanctionsOnce sampleCodec (sampleCell ["alice"] Cooldowns.none) repeatedSweeps := by
  refine ⟨by decide, by decide, by decide +kernel, ?_⟩
  intro h
  have hcount := h "alice" 0 (by decide)
  revert hcount
  decide +kernel

theorem repeatedSweeps_leaves_bounded :
    (runSweeps sampleCodec (sampleCell ["alice"] Cooldowns.none) repeatedSweeps).2.log.length ≤
        1+2*2 ∧
      (runSweeps sampleCodec (sampleCell ["alice"] Cooldowns.none) repeatedSweeps).2.log.length =
        5 := by
  refine ⟨?_, by decide +kernel⟩
  have hrun := rule_enforced_once_a_window sampleCodec (sampleCell ["alice"] Cooldowns.none)
    repeatedSweeps (by decide) (by decide)
  have hleaves := (hrun.2 1100 1160 (by decide) (by decide)).2 (by decide)
  exact hleaves

end ScpCore.Consequence
