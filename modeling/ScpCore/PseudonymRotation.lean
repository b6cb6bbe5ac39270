import ScpCore.Saturating

/-! The local member's rotation of its routing ID in an encrypted context: the epoch schedule
over a policy, a creation time and a clock, and the list of routing IDs rotated away from. -/

namespace ScpCore.Pseudonym

abbrev Did := String
abbrev RoutingId := BitVec 256

def maxBlobTtl : ℕ := 604800

def pseudonymQueryOnlyMaxEntries : ℕ := 1024

def checkedAdd (a b : ℕ) : Option ℕ := if a+b ≤ u64Max then some (a+b) else none

structure PseudonymRotationPolicy where
  intervalSecs : Option ℕ
  onMembershipChange : Bool
  deriving DecidableEq

/-- A routing ID held before a rotation, queried until it expires. -/
structure QueryOnlyRoutingId where
  routingId : RoutingId
  expiresAtSecs : ℕ
  deriving DecidableEq

def QueryOnlyRoutingId.live (entry : QueryOnlyRoutingId) (now : ℕ) : Bool :=
  now < entry.expiresAtSecs

structure PseudonymRotationState where
  epoch : Option ℕ
  queryOnly : List QueryOnlyRoutingId
  announcePending : Bool
  boundaryIndex : ℕ
  membershipChangePending : Bool
  joinDerivationPending : Bool
  scheduleT0Secs : Option ℕ
  deriving DecidableEq

def scheduleIndex (t0 interval now : ℕ) : ℕ := if interval = 0 then 0 else (now-t0)/interval

/-- The schedule index under a policy: `none` where the policy sets an interval and the
creation time is not known. -/
def policyScheduleIndex (policy : Option PseudonymRotationPolicy) (t0 : Option ℕ) (now : ℕ) :
    Option ℕ :=
  match policy.bind PseudonymRotationPolicy.intervalSecs with
  | none => some 0
  | some interval => t0.map (fun t0 => scheduleIndex t0 interval now)

/-- The first of the entries that expire the earliest. -/
def earliestIndex (entries : List QueryOnlyRoutingId) : ℕ :=
  entries.findIdx (fun e => entries.all (fun f => e.expiresAtSecs ≤ f.expiresAtSecs))

/-- Drops the entry that expires the earliest until the list is within its bound. -/
def trimQueryOnly (entries : List QueryOnlyRoutingId) : List QueryOnlyRoutingId :=
  (fun l => l.eraseIdx (earliestIndex l))^[entries.length-pseudonymQueryOnlyMaxEntries] entries

namespace PseudonymRotationState

def default : PseudonymRotationState := ⟨none, [], false, 0, false, false, none⟩

variable (s : PseudonymRotationState) (policy : Option PseudonymRotationPolicy)

def anchorSchedule (now : ℕ) : PseudonymRotationState := { s with
  boundaryIndex := (policyScheduleIndex policy s.scheduleT0Secs now).getD 0
  membershipChangePending :=
    s.membershipChangePending && policy.any PseudonymRotationPolicy.onMembershipChange
  joinDerivationPending := s.joinDerivationPending && policy.isSome }

def anchored (t0 : Option ℕ) (now : ℕ) : PseudonymRotationState :=
  anchorSchedule { default with scheduleT0Secs := t0 } policy now

def joined (t0 : Option ℕ) (now : ℕ) : PseudonymRotationState :=
  { anchored policy t0 now with joinDerivationPending := policy.isSome }

def withScheduleT0 (t0 : Option ℕ) : PseudonymRotationState := { s with scheduleT0Secs := t0 }

/-- The epoch the next rotation carries: one up, or the schedule index for a member that has
none. -/
def nextEpoch (now : ℕ) : Option ℕ :=
  match s.epoch with
  | none => policy.bind (fun p => policyScheduleIndex (some p) s.scheduleT0Secs now)
  | some epoch => checkedAdd epoch 1

def rotationDue (now : ℕ) : Bool :=
  match policy with
  | none => false
  | some p =>
    if s.announcePending || (s.nextEpoch policy now).isNone then false
    else
      let boundaryPassed := p.intervalSecs.isSome &&
        (policyScheduleIndex policy s.scheduleT0Secs now).any (s.boundaryIndex < ·)
      boundaryPassed || (p.onMembershipChange && s.membershipChangePending) ||
        s.joinDerivationPending

def dueEpoch (now : ℕ) : Option ℕ :=
  if s.rotationDue policy now then s.nextEpoch policy now else none

def noteMembershipChange : PseudonymRotationState :=
  if policy.any PseudonymRotationPolicy.onMembershipChange then
    { s with membershipChangePending := true }
  else s

/-- The state after a rotation, unless the expiry of the old routing ID overflows. -/
def recordRotation (newEpoch : ℕ) (previousRoutingId : RoutingId) (now : ℕ) :
    Option PseudonymRotationState :=
  (checkedAdd now maxBlobTtl).map (fun expiresAtSecs => { s with
    epoch := some newEpoch
    queryOnly := trimQueryOnly
      (s.queryOnly.filter (fun e => e.live now) ++ [⟨previousRoutingId, expiresAtSecs⟩])
    announcePending := true
    boundaryIndex := max s.boundaryIndex ((policyScheduleIndex policy s.scheduleT0Secs now).getD 0)
    membershipChangePending := false
    joinDerivationPending := false })

def discardRotationState : PseudonymRotationState := { s with
  queryOnly := []
  announcePending := false
  membershipChangePending := false
  joinDerivationPending := false }

end PseudonymRotationState

theorem eraseIdx_iterate_subset (n : ℕ) (entries : List QueryOnlyRoutingId) :
    ((fun l => l.eraseIdx (earliestIndex l))^[n] entries) ⊆ entries := by
  induction n generalizing entries with
  | zero => exact List.Subset.refl _
  | succ n ih =>
    rw [Function.iterate_succ_apply]
    exact List.Subset.trans (ih _) List.eraseIdx_subset

theorem trimQueryOnly_subset (entries : List QueryOnlyRoutingId) :
    trimQueryOnly entries ⊆ entries := eraseIdx_iterate_subset _ _

namespace PseudonymRotationState
variable {s t : PseudonymRotationState} {policy : Option PseudonymRotationPolicy}
  {now newEpoch : ℕ} {previous : RoutingId}

theorem nextEpoch_of_dueEpoch (h : s.dueEpoch policy now = some newEpoch) :
    s.nextEpoch policy now = some newEpoch := by
  unfold dueEpoch at h
  split at h
  · exact h
  · cases h

/-- A member that holds an epoch rotates to a greater one. -/
theorem lt_of_dueEpoch {epoch : ℕ} (h : s.dueEpoch policy now = some newEpoch)
    (hepoch : s.epoch = some epoch) : epoch < newEpoch := by
  have hnext := nextEpoch_of_dueEpoch h
  simp only [nextEpoch, hepoch, checkedAdd] at hnext
  split at hnext
  · cases hnext
    omega
  · cases hnext

theorem recordRotation_epoch (h : s.recordRotation policy newEpoch previous now = some t) :
    t.epoch = some newEpoch := by
  obtain ⟨expires, -, rfl⟩ := Option.map_eq_some_iff.mp h
  rfl

/-- The query-only list gains the routing ID rotated away from and nothing else. -/
theorem recordRotation_queryOnly (h : s.recordRotation policy newEpoch previous now = some t)
    {entry : QueryOnlyRoutingId} (hentry : entry ∈ t.queryOnly) :
    entry ∈ s.queryOnly ∨ entry.routingId = previous := by
  obtain ⟨expires, -, rfl⟩ := Option.map_eq_some_iff.mp h
  dsimp only at hentry
  have hmem := trimQueryOnly_subset _ hentry
  rw [List.mem_append, List.mem_singleton] at hmem
  obtain hold | rfl := hmem
  · exact .inl (List.mem_of_mem_filter hold)
  · exact .inr rfl

end PseudonymRotationState

end ScpCore.Pseudonym
