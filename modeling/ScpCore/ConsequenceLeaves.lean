import ScpCore.ConsequenceSweep

/-! Which leaves a sweep appends to the durable log, and what of them depends on the member
that sweeps. The counts are taken from the log alone, but a rule that rests is passed over
by the local clock, and the leaves come in the order of a hash map. The leaves are the same
everywhere exactly where neither can show. -/

namespace ScpCore.Consequence

open EventLog (EventType)
open Roles (Capability ContextRoleState)

section Leaves
variable {π : Type} (codec : Codec π)

/-- The leaves that a sweep appends. -/
def appendedLeaves (clock : Clock) (order : List String) (cell : Cell π) :
    List (EventType × π × ℕ) :=
  (((handleEvaluatePeriodicConsequences codec clock order cell).2.log).drop
    cell.log.length).map leafOf

/-- The leaves are the same for every clock, every receive buffer and every order in which
the members are gone through. -/
def LeavesConverge (cell : Cell π) : Prop :=
  ∀ clock clock' buffer buffer' order order', order.Perm cell.membership.dids →
    order'.Perm cell.membership.dids →
    appendedLeaves codec clock order { cell with receiveBuffer := buffer } =
      appendedLeaves codec clock' order' { cell with receiveBuffer := buffer' }

/-- The leaves of a list of consequences, each of which is passed over while its rule rests. -/
def gatedLeaves (roles : ContextRoleState) (rules : List ConsequenceRule) (now : ℕ) :
    Cooldowns → List (String × TriggeredConsequence) → List (EventType × π × ℕ)
  | _, [] => []
  | cooldowns, (memberDid, consequence) :: rest =>
    if cooldowns.cooling consequence.ruleIndex now then gatedLeaves roles rules now cooldowns rest
    else leavesOf codec roles rules memberDid consequence ++
      gatedLeaves roles rules now
        (if enforceable roles memberDid consequence.action then
          restAfter rules cooldowns consequence.ruleIndex now
        else cooldowns) rest

variable {codec} {roles : ContextRoleState} {rules : List ConsequenceRule} {now : ℕ}

theorem SameStanding.leavesOf {after : ContextRoleState} (h : SameStanding roles after)
    (memberDid : String) (consequence : TriggeredConsequence) :
    leavesOf codec after rules memberDid consequence =
      leavesOf codec roles rules memberDid consequence := by
  unfold Consequence.leavesOf
  rw [h.enforceable]

theorem enforcePairs_leaves (codec : Codec π) (rules : List ConsequenceRule) (clock : Clock)
    (cell : Cell π) (pairs : List (String × TriggeredConsequence))
    (hmembers : ∀ pair ∈ pairs, pair.1 ∈ cell.membership.dids)
    (hstanding : SameStanding roles cell.roles) :
    (enforcePairs codec clock rules cell pairs).2.log.map leafOf =
      cell.log.map leafOf ++ gatedLeaves codec roles rules clock.now cell.cooldowns pairs := by
  induction pairs generalizing cell with
  | nil => simp [enforcePairs, gatedLeaves]
  | cons pair pairs ih =>
    obtain ⟨memberDid, consequence⟩ := pair
    have hrest : ∀ p ∈ pairs, p.1 ∈ cell.membership.dids :=
      fun p hp => hmembers p (List.mem_cons_of_mem _ hp)
    rw [enforcePairs, gatedLeaves]
    dsimp only
    by_cases hgate : cell.cooldowns.cooling consequence.ruleIndex clock.now = true
    · rw [processOneTriggeredConsequence_cooling codec clock rules memberDid cell consequence hgate,
        if_pos hgate]
      exact ih cell hrest hstanding
    · have hpassed := processOneTriggeredConsequence_passed codec clock rules memberDid cell
        consequence (Bool.not_eq_true _ ▸ hgate) (hmembers _ List.mem_cons_self)
      rw [if_neg hgate, ih _ (by rw [hpassed.membership]; exact hrest)
        (hstanding.trans hpassed.standing), hpassed.leaves, hpassed.cooldowns, hstanding.leavesOf,
        hstanding.enforceable, List.append_assoc]

theorem mem_sweepPairs {clock : Clock} {order : List String} {cell : Cell π}
    {pair : String × TriggeredConsequence} (h : pair ∈ sweepPairs codec clock order cell) :
    pair.1 ∈ order ∧ pair.2 ∈ triggeredFor codec clock cell pair.1 := by
  obtain ⟨memberDid, hmember, hpair⟩ := List.mem_flatMap.mp h
  obtain ⟨consequence, hconsequence, rfl⟩ := List.mem_map.mp hpair
  exact ⟨hmember, hconsequence⟩

theorem appendedLeaves_eq (clock : Clock) {order : List String} {cell : Cell π}
    (horder : order.Perm cell.membership.dids) :
    appendedLeaves codec clock order cell =
      gatedLeaves codec cell.roles cell.rules clock.now cell.cooldowns
        (sweepPairs codec clock order cell) := by
  have hleaves := enforcePairs_leaves codec cell.rules clock cell
    (sweepPairs codec clock order cell)
    (fun pair hpair => horder.mem_iff.mp (mem_sweepPairs hpair).1) (SameStanding.refl cell.roles)
  rw [appendedLeaves, handleEvaluatePeriodicConsequences_eq, List.map_drop, hleaves]
  exact List.drop_left' (List.length_map _)

/-- Two cooldown maps that agree on the rules whose consequences become leaves. -/
def AgreeDurable (rules : List ConsequenceRule) (c c' : Cooldowns) : Prop :=
  ∀ r, isDurable rules r = true → c.mark r = c'.mark r

theorem cooling_congr {c c' : Cooldowns} {r : ℕ} (h : c.mark r = c'.mark r) :
    c.cooling r now = c'.cooling r now := by
  unfold Cooldowns.cooling
  rw [h]

theorem restAfter_mark_of_ne {c : Cooldowns} {r r' : ℕ} (h : r ≠ r') :
    (restAfter rules c r' now).mark r = c.mark r := by
  unfold restAfter
  cases rules[r']? with
  | none => rfl
  | some rule => exact Function.update_of_ne h _ _

theorem AgreeDurable.restAfter {c c' : Cooldowns} (h : AgreeDurable rules c c') (r' : ℕ) :
    AgreeDurable rules (restAfter rules c r' now) (restAfter rules c' r' now) := by
  intro r hr
  by_cases hrr : r = r'
  · subst hrr
    unfold Consequence.restAfter
    cases hrule : rules[r]? with
    | none => exact h r hr
    | some rule => simp [Cooldowns.record]
  · rw [restAfter_mark_of_ne hrr, restAfter_mark_of_ne hrr]
    exact h r hr

/-- Rules that leave no leaf rest on their own account only. -/
theorem AgreeDurable.restAfter_left {c c' : Cooldowns} (h : AgreeDurable rules c c') {r' : ℕ}
    (hr' : isDurable rules r' = false) : AgreeDurable rules (Consequence.restAfter rules c r' now) c' := by
  intro r hr
  have hne : r ≠ r' := by
    intro he
    rw [he, hr'] at hr
    cases hr
  rw [restAfter_mark_of_ne hne]
  exact h r hr

theorem gatedLeaves_durable {c c' : Cooldowns} (h : AgreeDurable rules c c')
    (pairs : List (String × TriggeredConsequence)) :
    gatedLeaves codec roles rules now c pairs =
      gatedLeaves codec roles rules now c'
        (pairs.filter (fun pair => isDurable rules pair.2.ruleIndex)) := by
  induction pairs generalizing c c' with
  | nil => rfl
  | cons pair pairs ih =>
    obtain ⟨memberDid, consequence⟩ := pair
    cases hdurable : isDurable rules consequence.ruleIndex with
    | true =>
      rw [List.filter_cons_of_pos (by simpa using hdurable), gatedLeaves, gatedLeaves,
        cooling_congr (h _ hdurable)]
      by_cases hgate : c'.cooling consequence.ruleIndex now = true
      · rw [if_pos hgate, if_pos hgate]
        exact ih h
      · rw [if_neg hgate, if_neg hgate]
        congr 1
        by_cases henf : enforceable roles memberDid consequence.action = true
        · rw [if_pos henf, if_pos henf]
          exact ih (h.restAfter _)
        · rw [if_neg henf, if_neg henf]
          exact ih h
    | false =>
      have hnone : leavesOf codec roles rules memberDid consequence = [] := by
        rw [leavesOf, if_neg (by simp [hdurable])]
      rw [List.filter_cons_of_neg (by simp [hdurable]), gatedLeaves, hnone, List.nil_append]
      by_cases hgate : c.cooling consequence.ruleIndex now = true
      · rw [if_pos hgate]
        exact ih h
      · rw [if_neg hgate]
        by_cases henf : enforceable roles memberDid consequence.action = true
        · rw [if_pos henf]
          exact ih (h.restAfter_left hdurable)
        · rw [if_neg henf]
          exact ih h

/-- The records of the log that count against a member under a rule: governance records
inside the window that ends at the log's newest time. -/
def recordsAgainst (codec : Codec π) (log : List (Event π)) (rule : ConsequenceRule)
    (memberDid : String) : ℕ :=
  let anchor := convergentNow log 0
  log.countP (fun event => (anchor - rule.window ≤ event.timestamp && event.timestamp ≤ anchor) &&
    (bucket event.eventType).any (fun eventType =>
      matchesTrigger codec rule.trigger { event with eventType } memberDid))

/-- The log alone has the member reach the threshold of a rule that counts governance
records. -/
def Faces (codec : Codec π) (rules : List ConsequenceRule) (log : List (Event π))
    (memberDid : String) (ruleIndex : ℕ) : Prop :=
  ∃ rule, rules[ruleIndex]? = some rule ∧ isConvergentTrigger rule.trigger = true ∧
    rule.threshold ≤ min (recordsAgainst codec log rule memberDid) u64Max

/-- The durable consequences of a member, from the log alone. -/
def durableFor (codec : Codec π) (rules : List ConsequenceRule) (log : List (Event π))
    (memberDid : String) : List TriggeredConsequence :=
  (evaluateConsequenceRules codec rules (mergeLog log) memberDid 0 (convergentNow log 0)).filter
    (fun consequence => isDurable rules consequence.ruleIndex)

theorem mergeBuffer_messages (codec : Codec π) {nowSecs lastLogTs bufferLen nextSeq idx accepted : ℕ}
    {buffer : List ContextEvent} {event : Event π}
    (h : event ∈ mergeBuffer codec nowSecs lastLogTs bufferLen nextSeq idx accepted buffer) :
    event.eventType = .messageSent := by
  induction buffer generalizing idx accepted with
  | nil => cases h
  | cons first rest ih =>
    unfold mergeBuffer at h
    cases hsender : senderOf first with
    | none =>
      rw [hsender] at h
      exact ih h
    | some senderDid =>
      rw [hsender] at h
      dsimp only at h
      split at h
      · exact ih h
      · split at h
        · exact ih h
        · split at h
          · exact ih h
          · split at h
            · cases h
            · rcases List.mem_cons.mp h with rfl | h
              · rfl
              · exact ih h

/-- A rule that counts governance records counts no message. -/
theorem matchesTrigger_message {codec : Codec π} {trigger : ConsequenceTrigger} {event : Event π}
    {memberDid : String} (htrigger : isConvergentTrigger trigger = true)
    (hevent : event.eventType = .messageSent) :
    matchesTrigger codec trigger event memberDid = false := by
  cases trigger with
  | warningCount => simp [matchesTrigger, hevent]
  | custom key => simp [matchesTrigger, hevent]
  | messageVelocity => cases htrigger
  | outletRateExceeded => cases htrigger

theorem evidenceFor_append (codec : Codec π) (rule : ConsequenceRule) (events more : List (Event π))
    (memberDid : String) (anchor : ℕ) :
    evidenceFor codec rule (events ++ more) memberDid anchor =
      evidenceFor codec rule events memberDid anchor ++
        evidenceFor codec rule more memberDid anchor := by
  simp [evidenceFor, List.filter_append]

theorem evidenceFor_messages (codec : Codec π) {rule : ConsequenceRule} {events : List (Event π)}
    (memberDid : String) (anchor : ℕ) (hrule : isConvergentTrigger rule.trigger = true)
    (hevents : ∀ event ∈ events, event.eventType = .messageSent) :
    evidenceFor codec rule events memberDid anchor = [] := by
  rw [evidenceFor, List.map_eq_nil_iff, List.filter_eq_nil_iff]
  intro event hevent
  rw [matchesTrigger_message hrule (hevents event (List.mem_of_mem_filter hevent))]
  exact Bool.false_ne_true

/-- The evidence of a durable rule, whatever the clock and the buffer. -/
theorem evidenceFor_merge (codec : Codec π) {rule : ConsequenceRule} (log : List (Event π))
    (buffer : List ContextEvent) (now : ℕ) (memberDid : String)
    (hrule : isConvergentTrigger rule.trigger = true) :
    evidenceFor codec rule (mergeConsequenceEvents codec log buffer now) memberDid
        (convergentNow log now) =
      evidenceFor codec rule (mergeLog log) memberDid (convergentNow log 0) := by
  rw [mergeConsequenceEvents, evidenceFor_append,
    evidenceFor_messages codec memberDid _ hrule (fun _ => mergeBuffer_messages codec),
    List.append_nil]
  cases log with
  | nil => rfl
  | cons event log => rfl

theorem evaluateRule_eq_some_iff (codec : Codec π) (events : List (Event π)) (memberDid : String)
    (now convergent : ℕ) (rule : ConsequenceRule) (ruleIndex : ℕ)
    (consequence : TriggeredConsequence) :
    evaluateRule codec events memberDid now convergent rule ruleIndex = some consequence ↔
      rule.threshold ≤ min (evidenceFor codec rule events memberDid
        (if isConvergentTrigger rule.trigger then convergent else now)).length u64Max ∧
      consequence = ⟨ruleIndex, rule.action, evidenceFor codec rule events memberDid
        (if isConvergentTrigger rule.trigger then convergent else now)⟩ := by
  unfold evaluateRule
  dsimp only
  generalize evidenceFor codec rule events memberDid
    (if isConvergentTrigger rule.trigger then convergent else now) = evidence
  by_cases h : rule.threshold ≤ min evidence.length u64Max
  · rw [if_pos h, Option.some.injEq, eq_comm]
    exact ⟨fun he => ⟨h, he⟩, fun he => he.2⟩
  · rw [if_neg h]
    constructor
    · intro he
      cases he
    · intro he
      exact absurd he.1 h

theorem isDurable_of_mem_zipIdx {r : ConsequenceRule × ℕ} (h : r ∈ rules.zipIdx) :
    rules[r.2]? = some r.1 ∧ isDurable rules r.2 = isConvergentTrigger r.1.trigger := by
  have hat : rules[r.2]? = some r.1 := List.mem_zipIdx_iff_getElem?.mp h
  refine ⟨hat, ?_⟩
  rw [isDurable, hat, Option.any_some]

/-- The clock and the buffer have no part in a member's durable consequences. -/
theorem triggeredFor_durable (codec : Codec π) (clock : Clock) (cell : Cell π) (memberDid : String) :
    (triggeredFor codec clock cell memberDid).filter
        (fun consequence => isDurable cell.rules consequence.ruleIndex) =
      durableFor codec cell.rules cell.log memberDid := by
  unfold triggeredFor durableFor mergeForConsequences evaluateConsequenceRules
  dsimp only
  rw [List.filter_filterMap, List.filter_filterMap]
  apply List.filterMap_congr
  intro r hr
  have hdurable := (isDurable_of_mem_zipIdx hr).2
  cases htrigger : isConvergentTrigger r.1.trigger with
  | true =>
    unfold evaluateRule
    simp only [htrigger, if_true]
    rw [evidenceFor_merge codec cell.log _ clock.now memberDid htrigger]
  | false =>
    have hnone : ∀ (events : List (Event π)) (now convergent : ℕ),
        ((evaluateRule codec events memberDid now convergent r.1 r.2).filter
          (fun consequence => isDurable cell.rules consequence.ruleIndex)) = none := by
      intro events now convergent
      rw [Option.filter_eq_none_iff]
      intro consequence hconsequence
      rw [((evaluateRule_eq_some_iff _ _ _ _ _ _ _ _).mp hconsequence).2, hdurable, htrigger]
      exact Bool.false_ne_true
    rw [hnone, hnone]

theorem sweepPairs_durable (codec : Codec π) (clock : Clock) (order : List String) (cell : Cell π) :
    (sweepPairs codec clock order cell).filter
        (fun pair => isDurable cell.rules pair.2.ruleIndex) =
      order.flatMap (fun memberDid =>
        (durableFor codec cell.rules cell.log memberDid).map (memberDid, ·)) := by
  unfold sweepPairs
  rw [List.filter_flatMap]
  congr 1
  funext memberDid
  rw [List.filter_map, ← triggeredFor_durable codec clock cell memberDid]
  rfl

/-- The leaves of a sweep, from the log, the clock and the order. -/
theorem appendedLeaves_durable (codec : Codec π) (clock : Clock) (cell : Cell π)
    {order : List String} (horder : order.Perm cell.membership.dids) :
    appendedLeaves codec clock order cell =
      gatedLeaves codec cell.roles cell.rules clock.now cell.cooldowns
        (order.flatMap (fun memberDid =>
          (durableFor codec cell.rules cell.log memberDid).map (memberDid, ·))) := by
  rw [appendedLeaves_eq clock horder, gatedLeaves_durable (fun _ _ => rfl), sweepPairs_durable]

/-- Renumbering does not change how many events meet a condition. -/
theorem countP_mapIdx {α : Type} (f : ℕ → α → α) (p : α → Bool) (hp : ∀ i x, p (f i x) = p x)
    (l : List α) : (l.mapIdx f).countP p = l.countP p := by
  rw [List.mapIdx_eq_zipIdx_map, List.countP_map]
  have hfst : (p ∘ fun x : α × ℕ => f x.2 x.1) = p ∘ Prod.fst := by
    funext x
    exact hp x.2 x.1
  rw [hfst, ← List.countP_map, List.zipIdx_map_fst]

theorem length_evidenceFor_mergeLog (codec : Codec π) (rule : ConsequenceRule)
    (log : List (Event π)) (memberDid : String) :
    (evidenceFor codec rule (mergeLog log) memberDid (convergentNow log 0)).length =
      recordsAgainst codec log rule memberDid := by
  unfold evidenceFor mergeLog recordsAgainst
  dsimp only
  rw [List.length_map, List.filter_filter, ← List.countP_eq_length_filter, countP_mapIdx]
  · rw [List.countP_filterMap]
    congr 1
    funext event
    cases bucket event.eventType with
    | none => simp
    | some eventType => simp [Bool.and_comm]
  · intro i event
    cases rule.trigger <;> rfl

theorem mem_durableFor_iff (codec : Codec π) (rules : List ConsequenceRule) (log : List (Event π))
    (memberDid : String) (ruleIndex : ℕ) :
    (∃ consequence ∈ durableFor codec rules log memberDid, consequence.ruleIndex = ruleIndex) ↔
      Faces codec rules log memberDid ruleIndex := by
  constructor
  · rintro ⟨consequence, hmem, rfl⟩
    rw [durableFor, List.mem_filter] at hmem
    obtain ⟨hmem, hdurable⟩ := hmem
    obtain ⟨r, hr, hsome⟩ := List.mem_filterMap.mp hmem
    obtain ⟨hat, htrigger⟩ := isDurable_of_mem_zipIdx hr
    obtain ⟨hcount, rfl⟩ := (evaluateRule_eq_some_iff _ _ _ _ _ _ _ _).mp hsome
    rw [htrigger] at hdurable
    rw [if_pos hdurable, length_evidenceFor_mergeLog] at hcount
    exact ⟨r.1, hat, hdurable, hcount⟩
  · rintro ⟨rule, hat, htrigger, hcount⟩
    have hr : (rule, ruleIndex) ∈ rules.zipIdx := List.mem_zipIdx_iff_getElem?.mpr hat
    refine ⟨⟨ruleIndex, rule.action,
      evidenceFor codec rule (mergeLog log) memberDid (convergentNow log 0)⟩, ?_, rfl⟩
    rw [durableFor, List.mem_filter]
    refine ⟨List.mem_filterMap.mpr ⟨(rule, ruleIndex), hr, ?_⟩, ?_⟩
    · rw [evaluateRule_eq_some_iff, if_pos htrigger, length_evidenceFor_mergeLog]
      exact ⟨hcount, rfl⟩
    · rw [(isDurable_of_mem_zipIdx hr).2]
      exact htrigger

/-- No rule comes twice for one member. -/
theorem durableFor_pairwise (codec : Codec π) (rules : List ConsequenceRule) (log : List (Event π))
    (memberDid : String) :
    (durableFor codec rules log memberDid).Pairwise (fun a b => a.ruleIndex ≠ b.ruleIndex) := by
  apply List.Pairwise.filter
  rw [evaluateConsequenceRules, List.pairwise_filterMap]
  have hlt : (rules.zipIdx).Pairwise (fun a b => a.2 < b.2) := by
    rw [← List.pairwise_map, List.zipIdx_map_snd]
    exact List.pairwise_lt_range'
  refine hlt.imp ?_
  intro a b hab x hx y hy
  have hindex : ∀ (r : ConsequenceRule × ℕ) (z : TriggeredConsequence),
      evaluateRule codec (mergeLog log) memberDid 0 (convergentNow log 0) r.1 r.2 = some z →
        z.ruleIndex = r.2 := by
    intro r z hz
    rw [((evaluateRule_eq_some_iff _ _ _ _ _ _ _ _).mp hz).2]
  rw [hindex a x hx, hindex b y hy]
  exact Nat.ne_of_lt hab

/-- A leaf about a rule. -/
def About (codec : Codec π) (ruleIndex : ℕ) (leaf : EventType × π × ℕ) : Prop :=
  ∃ payload : ConsequencePayload, leaf.2.1 = codec.json payload ∧ payload.ruleIndex = ruleIndex

/-- A rule that rests and is not enforced goes on resting. -/
theorem cooling_unless_enforced {c : Cooldowns} {r r' : ℕ} (h : r ≠ r') (enforced : Bool) :
    (if enforced then restAfter rules c r' now else c).cooling r now = c.cooling r now := by
  cases enforced with
  | false => rfl
  | true => exact cooling_congr (restAfter_mark_of_ne h)

/-- While a rule rests no leaf is about it. -/
theorem gatedLeaves_about_cooling (hjson : Function.Injective codec.json) {c : Cooldowns} {r : ℕ}
    (hgate : c.cooling r now = true) (pairs : List (String × TriggeredConsequence)) :
    ∀ leaf ∈ gatedLeaves codec roles rules now c pairs, ¬ About codec r leaf := by
  induction pairs generalizing c with
  | nil =>
    intro leaf hleaf
    cases hleaf
  | cons pair pairs ih =>
    obtain ⟨memberDid, consequence⟩ := pair
    intro leaf hleaf
    rw [gatedLeaves] at hleaf
    by_cases hpair : c.cooling consequence.ruleIndex now = true
    · rw [if_pos hpair] at hleaf
      exact ih hgate leaf hleaf
    -- A consequence that passes is of another rule, and its enforcement leaves this gate closed.
    · have hne : r ≠ consequence.ruleIndex := by
        intro he
        rw [← he] at hpair
        exact hpair hgate
      rw [if_neg hpair, List.mem_append] at hleaf
      rcases hleaf with hleaf | hleaf
      · -- the leaves of a consequence are about its own rule
        rintro ⟨payload, hpayload, hr⟩
        have hown : ∃ own : ConsequencePayload, leaf.2.1 = codec.json own ∧
            own.ruleIndex = consequence.ruleIndex := by
          unfold leavesOf at hleaf
          split at hleaf
          · dsimp only at hleaf
            rcases List.mem_cons.mp hleaf with rfl | hleaf
            · exact ⟨_, rfl, rfl⟩
            · split at hleaf
              · rw [List.mem_singleton.mp hleaf]
                exact ⟨_, rfl, rfl⟩
              · rcases List.mem_cons.mp hleaf with rfl | hleaf
                · exact ⟨_, rfl, rfl⟩
                · rw [List.mem_singleton.mp hleaf]
                  exact ⟨_, rfl, rfl⟩
          · cases hleaf
        obtain ⟨own, hown, howner⟩ := hown
        have he : payload = own := hjson (hpayload.symm.trans hown)
        exact hne (hr.symm.trans (he ▸ howner))
      · exact ih ((cooling_unless_enforced hne _).trans hgate) leaf hleaf

theorem leavesOf_durable (codec : Codec π) (roles : ContextRoleState) (memberDid : String)
    {consequence : TriggeredConsequence} (h : isDurable rules consequence.ruleIndex = true) :
    ∃ rest, leavesOf codec roles rules memberDid consequence =
      (.consequenceTriggered, codec.json (payloadOf rules memberDid consequence),
        convergentConsequenceTimestamp consequence) :: rest := by
  rw [leavesOf, if_pos h]
  exact ⟨_, rfl⟩

/-- A rule that does not rest leaves a leaf where it was reached. -/
theorem gatedLeaves_about_open (codec : Codec π) (roles : ContextRoleState) {c : Cooldowns} {r : ℕ}
    (hgate : c.cooling r now = false) (hdurable : isDurable rules r = true)
    {pairs : List (String × TriggeredConsequence)}
    (hpairs : ∃ pair ∈ pairs, pair.2.ruleIndex = r) :
    ∃ leaf ∈ gatedLeaves codec roles rules now c pairs, About codec r leaf := by
  induction pairs generalizing c with
  | nil =>
    obtain ⟨pair, hpair, -⟩ := hpairs
    cases hpair
  | cons pair pairs ih =>
    obtain ⟨memberDid, consequence⟩ := pair
    rw [gatedLeaves]
    by_cases hr : consequence.ruleIndex = r
    · subst hr
      obtain ⟨rest, hrest⟩ := leavesOf_durable codec roles memberDid hdurable
      rw [if_neg (by rw [hgate]; exact Bool.false_ne_true), hrest]
      exact ⟨_, List.mem_append_left _ List.mem_cons_self, _, rfl, rfl⟩
    · have hlater : ∃ pair ∈ pairs, pair.2.ruleIndex = r := by
        obtain ⟨pair, hpair, he⟩ := hpairs
        rcases List.mem_cons.mp hpair with rfl | hpair
        · exact absurd he hr
        · exact ⟨pair, hpair, he⟩
      split
      · exact ih hgate hlater
      · obtain ⟨leaf, hleaf, habout⟩ := ih
          ((cooling_unless_enforced (Ne.symm hr) _).trans hgate) hlater
        exact ⟨leaf, List.mem_append_right _ hleaf, habout⟩

/-- Where no rule rests and none comes twice, the gate lets everything through. -/
theorem gatedLeaves_open {c : Cooldowns} {pairs : List (String × TriggeredConsequence)}
    (hgate : ∀ pair ∈ pairs, c.cooling pair.2.ruleIndex now = false)
    (hpairs : pairs.Pairwise (fun a b => a.2.ruleIndex ≠ b.2.ruleIndex)) :
    gatedLeaves codec roles rules now c pairs =
      pairs.flatMap (fun pair => leavesOf codec roles rules pair.1 pair.2) := by
  induction pairs generalizing c with
  | nil => rfl
  | cons pair pairs ih =>
    obtain ⟨memberDid, consequence⟩ := pair
    rw [List.pairwise_cons] at hpairs
    have hhead := hgate _ List.mem_cons_self
    rw [gatedLeaves, if_neg (by rw [hhead]; exact Bool.false_ne_true), List.flatMap_cons, ih]
    · intro pair hpair
      rw [cooling_unless_enforced (Ne.symm (hpairs.1 pair hpair))]
      exact hgate pair (List.mem_cons_of_mem _ hpair)
    · exact hpairs.2

theorem nodup_eq_single {α : Type} {l : List α} (hnodup : l.Nodup)
    (hone : ∀ a ∈ l, ∀ b ∈ l, a = b) : l = [] ∨ ∃ a, l = [a] := by
  match l with
  | [] => exact Or.inl rfl
  | [a] => exact Or.inr ⟨a, rfl⟩
  | a :: b :: rest =>
    have hab := hone a List.mem_cons_self b (List.mem_cons_of_mem _ List.mem_cons_self)
    rw [hab, List.nodup_cons] at hnodup
    exact absurd List.mem_cons_self hnodup.1

/-- A list in which at most one element has something to give gives the same in every
order. -/
theorem flatMap_perm_of_one {α β : Type} {l l' : List α} (f : α → List β) (hperm : l.Perm l')
    (hnodup : l.Nodup) (hone : ∀ a ∈ l, ∀ b ∈ l, f a ≠ [] → f b ≠ [] → a = b) :
    l.flatMap f = l'.flatMap f := by
  have hdrop : ∀ k : List α, k.flatMap f = (k.filter (fun a => !(f a).isEmpty)).flatMap f := by
    intro k
    induction k with
    | nil => rfl
    | cons a k ih =>
      by_cases ha : f a = []
      · simp [ha, ih]
      · simp [ha, ih]
  have hfilter := hperm.filter (fun a => !(f a).isEmpty)
  have hgives : ∀ a ∈ l.filter (fun a => !(f a).isEmpty), a ∈ l ∧ f a ≠ [] := by
    intro a ha
    simpa using List.mem_filter.mp ha
  have hshort := nodup_eq_single (hnodup.filter (fun a => !(f a).isEmpty)) (by
    intro a ha b hb
    exact hone a (hgives a ha).1 b (hgives b hb).1 (hgives a ha).2 (hgives b hb).2)
  rw [hdrop l, hdrop l']
  rcases hshort with hnil | ⟨a, ha⟩
  · rw [hnil] at hfilter ⊢
    rw [hfilter.nil_eq]
  · rw [ha] at hfilter ⊢
    rw [List.perm_singleton.mp hfilter.symm]

/-- No rule that a member faces rests, at whatever time. -/
def Unmarked (codec : Codec π) (cell : Cell π) : Prop :=
  ∀ memberDid ∈ cell.membership.dids, ∀ r, Faces codec cell.rules cell.log memberDid r →
    ∀ t, cell.cooldowns.mark r = some t → t = 0

/-- At most one member faces a rule that counts governance records. -/
def OneOffender (codec : Codec π) (cell : Cell π) : Prop :=
  ∀ a ∈ cell.membership.dids, ∀ b ∈ cell.membership.dids, ∀ r s,
    Faces codec cell.rules cell.log a r → Faces codec cell.rules cell.log b s → a = b

theorem cooling_of_unmarked {c : Cooldowns} {r : ℕ} (h : ∀ t, c.mark r = some t → t = 0) :
    c.cooling r now = false := by
  unfold Cooldowns.cooling
  cases hmark : c.mark r with
  | none => rfl
  | some t => simp [h t hmark]

def clockAt (now : ℕ) (h : now ≤ u64Max) : Clock := ⟨now, h, fun _ => ""⟩

/-- A positive mark shows: the rule rests at time 0 and no longer at the mark. -/
theorem LeavesConverge.unmarked {cell : Cell π} (hjson : Function.Injective codec.json)
    (h : LeavesConverge codec cell) : Unmarked codec cell := by
  intro memberDid hmember r hfaces t hmark
  by_contra ht
  have hle := cell.cooldowns.mark_le r t hmark
  have hrefl := List.Perm.refl cell.membership.dids
  have hpairs : ∃ pair ∈ cell.membership.dids.flatMap (fun memberDid =>
      (durableFor codec cell.rules cell.log memberDid).map (memberDid, ·)),
      pair.2.ruleIndex = r := by
    obtain ⟨consequence, hmem, hr⟩ := (mem_durableFor_iff codec _ _ _ r).mpr hfaces
    exact ⟨(memberDid, consequence),
      List.mem_flatMap.mpr ⟨memberDid, hmember, List.mem_map.mpr ⟨consequence, hmem, rfl⟩⟩, hr⟩
  have hdurable : isDurable cell.rules r = true := by
    obtain ⟨rule, hrule, htrigger, -⟩ := hfaces
    rw [isDurable, hrule]
    exact htrigger
  have hsame := h (clockAt 0 (Nat.zero_le _)) (clockAt t hle) cell.receiveBuffer
    cell.receiveBuffer _ _ hrefl hrefl
  rw [appendedLeaves_durable codec _ _ hrefl, appendedLeaves_durable codec _ _ hrefl] at hsame
  have hopen : cell.cooldowns.cooling r t = false := by
    simp [Cooldowns.cooling, hmark]
  have hclosed : cell.cooldowns.cooling r 0 = true := by
    simp only [Cooldowns.cooling, hmark, decide_eq_true_eq]
    omega
  obtain ⟨leaf, hleaf, habout⟩ :=
    gatedLeaves_about_open codec cell.roles hopen hdurable hpairs
  exact gatedLeaves_about_cooling hjson hclosed _ leaf (hsame ▸ hleaf) habout

/-- The first leaf of a sweep that begins with a member who faces a rule names the member. -/
theorem appendedLeaves_first {cell : Cell π} (hunmarked : Unmarked codec cell) {a : String} {r : ℕ}
    (ha : a ∈ cell.membership.dids) (hfaces : Faces codec cell.rules cell.log a r)
    (clock : Clock) :
    ∃ order, order.Perm cell.membership.dids ∧ ∃ payload timestamp rest,
      payload.targetDid = a ∧ appendedLeaves codec clock order cell =
        (.consequenceTriggered, codec.json payload, timestamp) :: rest := by
  refine ⟨a :: cell.membership.dids.erase a, (List.perm_cons_erase ha).symm, ?_⟩
  obtain ⟨first, others, hdurable⟩ : ∃ first others,
      durableFor codec cell.rules cell.log a = first :: others := by
    obtain ⟨consequence, hmem, -⟩ := (mem_durableFor_iff codec _ _ _ r).mpr hfaces
    exact List.exists_cons_of_ne_nil (List.ne_nil_of_mem hmem)
  have hmem : first ∈ durableFor codec cell.rules cell.log a := hdurable ▸ List.mem_cons_self
  have hgate : cell.cooldowns.cooling first.ruleIndex clock.now = false :=
    cooling_of_unmarked (hunmarked a ha _ ((mem_durableFor_iff codec _ _ _ _).mp ⟨first, hmem, rfl⟩))
  obtain ⟨rest, hleaves⟩ := leavesOf_durable codec cell.roles a (List.mem_filter.mp hmem).2
  rw [appendedLeaves_durable codec clock cell (List.perm_cons_erase ha).symm, List.flatMap_cons,
    hdurable, List.map_cons, List.cons_append, gatedLeaves,
    if_neg (by rw [hgate]; exact Bool.false_ne_true), hleaves]
  exact ⟨_, _, _, rfl, rfl⟩

theorem LeavesConverge.oneOffender {cell : Cell π} (hjson : Function.Injective codec.json)
    (h : LeavesConverge codec cell) : OneOffender codec cell := by
  intro a ha b hb r s hr hs
  have hunmarked := h.unmarked hjson
  obtain ⟨order, horder, payload, timestamp, rest, htarget, hleaves⟩ :=
    appendedLeaves_first hunmarked ha hr (clockAt 0 (Nat.zero_le _))
  obtain ⟨order', horder', payload', timestamp', rest', htarget', hleaves'⟩ :=
    appendedLeaves_first hunmarked hb hs (clockAt 0 (Nat.zero_le _))
  have hsame := h (clockAt 0 (Nat.zero_le _)) (clockAt 0 (Nat.zero_le _)) cell.receiveBuffer
    cell.receiveBuffer order order' horder horder'
  rw [hleaves, hleaves'] at hsame
  injection hsame with hleaf
  have hpayload : payload = payload' := hjson (congrArg (fun leaf => leaf.2.1) hleaf)
  rw [← htarget, ← htarget', hpayload]

theorem leavesConverge_of {cell : Cell π} (hone : OneOffender codec cell)
    (hunmarked : Unmarked codec cell) : LeavesConverge codec cell := by
  intro clock clock' buffer buffer' order order' horder horder'
  rw [appendedLeaves_durable codec clock { cell with receiveBuffer := buffer } horder,
    appendedLeaves_durable codec clock' { cell with receiveBuffer := buffer' } horder']
  dsimp only
  -- Only one member has consequences, so the two sweeps come to the same list of them.
  have hpairs := flatMap_perm_of_one
    (fun memberDid => (durableFor codec cell.rules cell.log memberDid).map (memberDid, ·))
    (horder.trans horder'.symm) (horder.symm.nodup cell.membership.nodup) (by
      intro a ha b hb hfa hfb
      obtain ⟨x, hx⟩ := List.exists_mem_of_ne_nil _ hfa
      obtain ⟨y, hy⟩ := List.exists_mem_of_ne_nil _ hfb
      obtain ⟨consequence, hmem, -⟩ := List.mem_map.mp hx
      obtain ⟨consequence', hmem', -⟩ := List.mem_map.mp hy
      exact hone a (horder.mem_iff.mp ha) b (horder.mem_iff.mp hb) _ _
        ((mem_durableFor_iff codec _ _ _ _).mp ⟨consequence, hmem, rfl⟩)
        ((mem_durableFor_iff codec _ _ _ _).mp ⟨consequence', hmem', rfl⟩))
  rw [← hpairs]
  have hgate : ∀ pair ∈ order.flatMap (fun memberDid =>
      (durableFor codec cell.rules cell.log memberDid).map (memberDid, ·)), ∀ now,
      cell.cooldowns.cooling pair.2.ruleIndex now = false := by
    intro pair hpair now
    obtain ⟨a, ha, hpair⟩ := List.mem_flatMap.mp hpair
    obtain ⟨consequence, hmem, rfl⟩ := List.mem_map.mp hpair
    exact cooling_of_unmarked (hunmarked a (horder.mem_iff.mp ha) _
      ((mem_durableFor_iff codec _ _ _ _).mp ⟨consequence, hmem, rfl⟩))
  have hdistinct : (order.flatMap (fun memberDid =>
      (durableFor codec cell.rules cell.log memberDid).map (memberDid, ·))).Pairwise
      (fun a b => a.2.ruleIndex ≠ b.2.ruleIndex) := by
    rw [List.pairwise_flatMap]
    refine ⟨?_, ?_⟩
    · intro a ha
      rw [List.pairwise_map]
      exact durableFor_pairwise codec _ _ a
    · have hnodup : order.Nodup := horder.symm.nodup cell.membership.nodup
      refine hnodup.imp_of_mem ?_
      intro a b ha hb hab x hx y hy
      obtain ⟨consequence, hmem, -⟩ := List.mem_map.mp hx
      obtain ⟨consequence', hmem', -⟩ := List.mem_map.mp hy
      exact absurd (hone a (horder.mem_iff.mp ha) b (horder.mem_iff.mp hb) _ _
        ((mem_durableFor_iff codec _ _ _ _).mp ⟨consequence, hmem, rfl⟩)
        ((mem_durableFor_iff codec _ _ _ _).mp ⟨consequence', hmem', rfl⟩)) hab
  rw [gatedLeaves_open (fun pair hpair => hgate pair hpair _) hdistinct,
    gatedLeaves_open (fun pair hpair => hgate pair hpair _) hdistinct]

/-- The durable leaves of a sweep are the same for every clock, receive buffer and order of
the members exactly where at most one member faces a rule that counts governance records
and no rule it faces is marked to rest. -/
theorem durable_leaves_converge_iff (codec : Codec π) (hjson : Function.Injective codec.json)
    (cell : Cell π) :
    LeavesConverge codec cell ↔ OneOffender codec cell ∧ Unmarked codec cell := by
  constructor
  · intro h
    exact ⟨h.oneOffender hjson, h.unmarked hjson⟩
  · intro h
    exact leavesConverge_of h.1 h.2

end Leaves

-- Two members who were each warned once, under one rule that suspends after a warning.

/-- Payloads by their fields: an object with a `target_did`. -/
def sampleCodec : Codec (Option ConsequencePayload) where
  empty := none
  isEmpty := Option.isNone
  rmpArrayFirstString := fun _ => none
  jsonTargetDid := fun data => data.map (·.targetDid)
  json := some

def sampleRule : ConsequenceRule := ⟨.warningCount, .enforcement .suspendAccess, 1, 60⟩

def sampleWarning (did : String) : Event (Option ConsequencePayload) :=
  ⟨.governanceActionExecuted, "admin", 1000, 0, some ⟨did, 0, "", ""⟩⟩

def sampleRoleState : ContextRoleState where
  contextId := "room"
  creatorDid := "admin"
  ceiling := ⟨[]⟩
  roleDefinitions := fun _ => none
  assignments := fun _ => none
  members := fun _ => true
  memberCapabilities := fun _ => some [.messagesWrite]
  suspendedCapabilities := fun _ => none

def sampleCell (warned : List String) (cooldowns : Cooldowns) : Cell (Option ConsequencePayload) where
  rules := [sampleRule]
  log := warned.map sampleWarning
  receiveBuffer := ⟨[], 100, 0⟩
  membership := ⟨["alice", "bob"], by decide⟩
  roles := sampleRoleState
  cooldowns := cooldowns
  checkpointEventsSince := 0

/-- The rule was last enforced at 1440, by the clock of the member that keeps the mark. -/
def sampleMark : Cooldowns := Cooldowns.none.record 0 1440 60

/-- With both warned, the order decides whose leaves are appended; with one warned and the
rule marked, the clock decides whether any are. -/
theorem durable_leaves_diverge :
    ¬ LeavesConverge sampleCodec (sampleCell ["alice", "bob"] Cooldowns.none) ∧
      ¬ LeavesConverge sampleCodec (sampleCell ["alice"] sampleMark) := by
  constructor
  · intro h
    have hsame := h (clockAt 1100 (by decide)) (clockAt 1100 (by decide)) ⟨[], 100, 0⟩ ⟨[], 100, 0⟩
      ["alice", "bob"] ["bob", "alice"] (List.Perm.refl _) (List.Perm.swap _ _ _)
    revert hsame
    decide +kernel
  · intro h
    have hsame := h (clockAt 1499 (by decide)) (clockAt 1501 (by decide)) ⟨[], 100, 0⟩ ⟨[], 100, 0⟩
      ["alice", "bob"] ["alice", "bob"] (List.Perm.refl _) (List.Perm.refl _)
    revert hsame
    decide +kernel

/-- With one warned and no mark they are the same everywhere. -/
theorem durable_leaves_converge_iff_sample :
    LeavesConverge sampleCodec (sampleCell ["alice"] Cooldowns.none) ∧
      appendedLeaves sampleCodec (clockAt 1100 (by decide)) ["alice", "bob"]
        (sampleCell ["alice"] Cooldowns.none) =
          [(.consequenceTriggered, some ⟨"alice", 0, "WarningCount", "SuspendAccess"⟩, 1000),
            (.consequenceEnforced, some ⟨"alice", 0, "WarningCount", "SuspendAccess"⟩, 1000)] := by
  have hbob : ∀ r, ¬ Faces sampleCodec [sampleRule] [sampleWarning "alice"] "bob" r := by
    rintro r ⟨rule, hrule, -, hcount⟩
    have he : rule = sampleRule := by simpa using List.mem_of_getElem? hrule
    rw [he] at hcount
    revert hcount
    decide +kernel
  refine ⟨(durable_leaves_converge_iff sampleCodec (Option.some_injective _) _).mpr ⟨?_, ?_⟩,
    by decide +kernel⟩
  · intro a ha b hb r s hr hs
    simp only [sampleCell, List.mem_cons, List.not_mem_nil, or_false] at ha hb
    rcases ha with rfl | rfl
    · rcases hb with rfl | rfl
      · rfl
      · exact absurd hs (hbob s)
    · exact absurd hr (hbob r)
  · intro memberDid _ r _ t ht
    cases ht

end ScpCore.Consequence
