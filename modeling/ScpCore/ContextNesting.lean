import ScpCore.RoleCeiling

/-! Creation of a child context under its parents: the ceiling it may ask for, the right of its
creator, and the parents' approvals. -/

namespace ScpCore.Roles

structure ParentRef where
  contextId : String
  ceiling : CapabilityCeiling
  members : List String
  deriving DecidableEq

inductive NestingError
  | noParents
  | depthExceeded (depth max : ℕ)
  | ceilingNotSubset (violating : List Capability)
  | creatorLacksCapability (creator : String)
  | approvalMissing (parentId : String)
  deriving DecidableEq

/-- A child context and its parents, each found under its context id. -/
structure ContextNesting where
  childContextId : String
  parents : String → Option ParentRef
  childCeiling : CapabilityCeiling
  childMembers : List String
  depth : ℕ
  closed : Bool

/-- The entries listed in both ceilings. -/
def CapabilityCeiling.intersect (ceiling other : CapabilityCeiling) : List Capability :=
  ceiling.capabilities.filter (· ∈ other.capabilities)

def narrowedBy (intersection : CapabilityCeiling) (parent : ParentRef) : CapabilityCeiling :=
  ⟨parent.ceiling.intersect intersection⟩

def computeCeilingIntersection : List ParentRef → CapabilityCeiling
  | [] => ⟨[]⟩
  -- Entries are compared as they stand: a wildcard meets only itself.
  | first :: rest => rest.foldl narrowedBy first.ceiling

/-- The entries of the child's ceiling that the intersection does not contain. -/
def violating (parents : List ParentRef) (childCeiling : CapabilityCeiling) : List Capability :=
  childCeiling.capabilities.filter (fun c => !(computeCeilingIntersection parents).contains c)

def checkChildCeiling (parents : List ParentRef) (childCeiling : CapabilityCeiling) :
    Except NestingError Unit :=
  require (violating parents childCeiling = [])
    (.ceilingNotSubset (violating parents childCeiling))

def creatorHasCapability (parents : List ParentRef) (creator : String) : Bool :=
  parents.any (fun p => p.ceiling.contains .childContextCreate && creator ∈ p.members)

def checkDepth (depth : ℕ) (maxNestingDepth : Option ℕ) : Except NestingError Unit :=
  match maxNestingDepth with
  | some max => require (depth ≤ max) (.depthExceeded depth max)
  | none => .ok ()

def checkApprovals (parents : List ParentRef) (governanceApprovals : List String) :
    Except NestingError Unit :=
  checkEach (fun parent : ParentRef => require (parent.contextId ∈ governanceApprovals)
    (.approvalMissing parent.contextId)) parents

def ContextNesting.new (childContextId : String) (parents : List ParentRef)
    (childCeiling : CapabilityCeiling) (creator : String) (governanceApprovals : List String)
    (depth : ℕ) (maxNestingDepth : Option ℕ) : Except NestingError ContextNesting := do
  require (parents ≠ []) .noParents
  checkDepth depth maxNestingDepth
  checkChildCeiling parents childCeiling
  require (creatorHasCapability parents creator = true) (.creatorLacksCapability creator)
  checkApprovals parents governanceApprovals
  pure {
    childContextId := childContextId
    -- The last of two parents with one id is kept.
    parents := fun id => parents.reverse.find? (fun p => p.contextId = id)
    childCeiling := childCeiling
    childMembers := []
    depth := depth
    closed := false }

variable {parents : List ParentRef} {childCeiling : CapabilityCeiling} {c : Capability}

theorem mem_foldl_narrowedBy (rest : List ParentRef) (ceiling : CapabilityCeiling) :
    c ∈ (rest.foldl narrowedBy ceiling).capabilities ↔
      c ∈ ceiling.capabilities ∧ ∀ p ∈ rest, c ∈ p.ceiling.capabilities := by
  induction rest generalizing ceiling with
  | nil => simp
  | cons first rest ih =>
    rw [List.foldl_cons, ih, narrowedBy, CapabilityCeiling.intersect, List.mem_filter,
      decide_eq_true_eq, List.forall_mem_cons]
    tauto

/-- The intersection lists what every parent lists. -/
theorem mem_computeCeilingIntersection (hne : parents ≠ []) :
    c ∈ (computeCeilingIntersection parents).capabilities ↔
      ∀ p ∈ parents, c ∈ p.ceiling.capabilities := by
  cases parents with
  | nil => exact absurd rfl hne
  | cons first rest =>
    rw [computeCeilingIntersection, mem_foldl_narrowedBy, List.forall_mem_cons]

theorem CapabilityCeiling.contains_iff (ceiling : CapabilityCeiling) :
    ceiling.contains c = true ↔ c ∈ ceiling.capabilities ∨
      ∃ wild, c.wildcard = some wild ∧ wild ∈ ceiling.capabilities := by
  rw [contains, Bool.or_eq_true, decide_eq_true_eq, Option.any_eq_true]
  simp only [decide_eq_true_eq]

/-- The intersection contains what every parent lists, or whose wildcard every parent lists. -/
theorem intersection_contains_iff (hne : parents ≠ []) :
    (computeCeilingIntersection parents).contains c = true ↔
      (∀ p ∈ parents, c ∈ p.ceiling.capabilities) ∨
        ∃ wild, c.wildcard = some wild ∧ ∀ p ∈ parents, wild ∈ p.ceiling.capabilities := by
  rw [CapabilityCeiling.contains_iff, mem_computeCeilingIntersection hne]
  simp only [mem_computeCeilingIntersection hne]

theorem checkChildCeiling_ok_iff : checkChildCeiling parents childCeiling = .ok () ↔
    ∀ c ∈ childCeiling.capabilities, (computeCeilingIntersection parents).contains c = true := by
  rw [checkChildCeiling, require_ok_iff, decide_eq_true_eq, violating, List.filter_eq_nil_iff]
  simp

/-- Nesting never widens: what the intersection contains, every parent contains. -/
theorem contains_of_intersection (hne : parents ≠ [])
    (h : (computeCeilingIntersection parents).contains c = true) {p : ParentRef}
    (hp : p ∈ parents) : p.ceiling.contains c = true := by
  rw [CapabilityCeiling.contains_iff]
  rcases (intersection_contains_iff hne).mp h with hlisted | ⟨wild, hw, hlisted⟩
  · exact Or.inl (hlisted p hp)
  · exact Or.inr ⟨wild, hw, hlisted p hp⟩

/-- A created child's ceiling is contained in the ceiling of each of its parents. -/
theorem ContextNesting.new_contained {childContextId creator : String}
    {governanceApprovals : List String} {depth : ℕ} {maxNestingDepth : Option ℕ}
    {nesting : ContextNesting}
    (h : new childContextId parents childCeiling creator governanceApprovals depth
      maxNestingDepth = .ok nesting)
    (hc : c ∈ nesting.childCeiling.capabilities) {p : ParentRef} (hp : p ∈ parents) :
    p.ceiling.contains c = true := by
  simp only [new, bind_ok_iff, exists_unit_iff, require_ok_iff, decide_eq_true_eq] at h
  obtain ⟨hne, _, hceiling, _, _, hnesting⟩ := h
  cases hnesting
  exact contains_of_intersection hne (checkChildCeiling_ok_iff.mp hceiling c hc) hp

theorem computeCeilingIntersection_contains_perm {parents' : List ParentRef}
    (h : parents'.Perm parents) : (computeCeilingIntersection parents').contains =
      (computeCeilingIntersection parents).contains := by
  by_cases hne : parents = []
  · rw [hne] at h
    rw [hne, List.perm_nil.mp h]
  have hne' : parents' ≠ [] := fun hnil => hne (List.perm_nil.mp (hnil ▸ h).symm)
  funext c
  rw [Bool.eq_iff_iff, intersection_contains_iff hne, intersection_contains_iff hne']
  simp only [h.mem_iff]

/-- The answer of the check, with the entries it names, is that of any order of the parents. -/
theorem checkChildCeiling_perm {parents' : List ParentRef} (h : parents'.Perm parents) :
    checkChildCeiling parents' childCeiling = checkChildCeiling parents childCeiling := by
  have hsame : violating parents' childCeiling = violating parents childCeiling := by
    rw [violating, computeCeilingIntersection_contains_perm h, violating]
  rw [checkChildCeiling, hsame, checkChildCeiling]

/-- An entry of the child that one parent does not list, of a class whose wildcard one parent
does not list. -/
def SplitEntry (parents : List ParentRef) (childCeiling : CapabilityCeiling) : Prop :=
  ∃ c ∈ childCeiling.capabilities, ∃ wild, c.wildcard = some wild ∧
    (∃ p ∈ parents, c ∉ p.ceiling.capabilities) ∧ ∃ q ∈ parents, wild ∉ q.ceiling.capabilities

theorem checkChildCeiling_of_contained (hne : parents ≠ [])
    (h : ∀ c ∈ childCeiling.capabilities, ∀ p ∈ parents, p.ceiling.contains c = true) :
    checkChildCeiling parents childCeiling = .ok () ↔ ¬ SplitEntry parents childCeiling := by
  rw [checkChildCeiling_ok_iff]
  constructor
  · rintro haccepted ⟨c, hc, wild, hw, ⟨p, hp, hnot⟩, ⟨q, hq, hnotWild⟩⟩
    -- An entry that the intersection contains is listed by all, or its wildcard is.
    rcases (intersection_contains_iff hne).mp (haccepted c hc) with hlisted | ⟨wild', hw', hlisted⟩
    · exact hnot (hlisted p hp)
    · rw [hw] at hw'
      cases hw'
      exact hnotWild (hlisted q hq)
  · intro hnone c hc
    rw [intersection_contains_iff hne]
    by_contra hneither
    push Not at hneither
    obtain ⟨⟨p, hp, hnot⟩, hwilds⟩ := hneither
    -- The parent that does not list the entry lists its wildcard.
    rcases (CapabilityCeiling.contains_iff _).mp (h c hc p hp) with hlisted | ⟨wild, hw, _⟩
    · exact hnot hlisted
    · exact hnone ⟨c, hc, wild, hw, ⟨p, hp, hnot⟩, hwilds wild hw⟩

/-- The check is the pointwise one, in any order of the parents, unless every parent contains the
child's ceiling and some entry of it is split between the parents. -/
theorem child_ceiling_pointwise_iff (parents : List ParentRef) (childCeiling : CapabilityCeiling)
    (hne : parents ≠ []) :
    ((checkChildCeiling parents childCeiling = .ok () ↔
        ∀ c ∈ childCeiling.capabilities, ∀ p ∈ parents, p.ceiling.contains c = true) ∧
      ∀ parents' : List ParentRef, parents'.Perm parents →
        checkChildCeiling parents' childCeiling = checkChildCeiling parents childCeiling) ↔
      ¬ ((∀ c ∈ childCeiling.capabilities, ∀ p ∈ parents, p.ceiling.contains c = true) ∧
        SplitEntry parents childCeiling) := by
  constructor
  · rintro ⟨hpointwise, _⟩ ⟨hall, hsplit⟩
    exact (checkChildCeiling_of_contained hne hall).mp (hpointwise.mpr hall) hsplit
  · intro hnot
    refine ⟨⟨?_, ?_⟩, fun parents' hperm => checkChildCeiling_perm hperm⟩
    · intro haccepted c hc p hp
      exact contains_of_intersection hne (checkChildCeiling_ok_iff.mp haccepted c hc) hp
    · intro hall
      exact (checkChildCeiling_of_contained hne hall).mpr (fun hsplit => hnot ⟨hall, hsplit⟩)

def searchParent (id : String) (entries : List Capability) : ParentRef :=
  ⟨id, ⟨.childContextCreate :: entries⟩, ["alice"]⟩

theorem wildcard_parents_pointwise :
    (checkChildCeiling [searchParent "a" [.outletQueryAll], searchParent "b" [.outletQueryAll]]
        ⟨[.outletQuery "search"]⟩ = .ok () ↔
      ∀ c ∈ [Capability.outletQuery "search"],
        ∀ p ∈ [searchParent "a" [.outletQueryAll], searchParent "b" [.outletQueryAll]],
          p.ceiling.contains c = true) :=
  ((child_ceiling_pointwise_iff _ ⟨[.outletQuery "search"]⟩ (List.cons_ne_nil _ _)).mpr (by
    rintro ⟨_, c, hc, wild, hw, _, q, hq, hnot⟩
    cases List.mem_singleton.mp hc
    cases hw
    simp only [List.mem_cons, List.not_mem_nil, or_false] at hq
    rcases hq with rfl | rfl <;> exact hnot (by decide))).1

/-- One parent lists the wildcard and the other the outlet: both contain the child's only entry,
and the child is refused. -/
theorem split_outlet_refused :
    (∀ c ∈ [Capability.outletQuery "search"],
      ∀ p ∈ [searchParent "a" [.outletQueryAll], searchParent "b" [.outletQuery "search"]],
        p.ceiling.contains c = true) ∧
    checkChildCeiling
        [searchParent "a" [.outletQueryAll], searchParent "b" [.outletQuery "search"]]
        ⟨[.outletQuery "search"]⟩ =
      .error (.ceilingNotSubset [.outletQuery "search"]) := by
  decide

end ScpCore.Roles
