import ScpCore.KelWorld
import ScpCore.KelAssembly

/-! The walk down the assembly. `descend` and the stack of branches are one
worklist, given here as a relation; each group is offered at one chain only, so
the walk returns exactly the chains that grow from the root and that no group
extends. -/

namespace ScpCore.Kel

section Copies
variable {C : Crypto} {chain : ValidatedChain} {copies : Copies}

theorem successor_ok {a : Accepted} (h : successor C chain copies = .ok a) :
    ∃ u ∈ copies.all, checkSuccessor C chain u .signed = .ok a := by
  unfold successor at h
  cases hf : checkSuccessor C chain copies.first .signed with
  | ok a' =>
    rw [hf] at h
    cases h
    exact ⟨copies.first, List.mem_cons_self, hf⟩
  | error e =>
    simp only [hf] at h
    cases hs : copies.rest.findSome? (fun copy =>
        (checkSuccessor C chain copy .signed).toOption) with
    | none =>
      rw [hs] at h
      cases h
    | some a' =>
      rw [hs] at h
      cases h
      obtain ⟨u, hu, hok⟩ := List.exists_of_findSome?_eq_some hs
      refine ⟨u, List.mem_cons_of_mem _ hu, ?_⟩
      cases hc : checkSuccessor C chain u .signed with
      | error e' => simp [hc, Except.toOption] at hok
      | ok a' =>
        simp only [hc, Except.toOption, Option.some.injEq] at hok
        rw [hok]

/-- A group some copy of which passes is accepted. -/
theorem successor_of_copy {u : Bytes} {a : Accepted} (hu : u ∈ copies.all)
    (h : checkSuccessor C chain u .signed = .ok a) : ∃ a', successor C chain copies = .ok a' := by
  unfold successor
  cases hf : checkSuccessor C chain copies.first .signed with
  | ok a' => exact ⟨a', rfl⟩
  | error e =>
    cases hs : copies.rest.findSome? (fun copy =>
        (checkSuccessor C chain copy .signed).toOption) with
    | some a' => exact ⟨a', by simp⟩
    | none =>
      exfalso
      rcases List.mem_cons.mp hu with rfl | hu
      · rw [hf] at h
        cases h
      · rw [List.findSome?_eq_none_iff] at hs
        have hnone := hs u hu
        simp [h, Except.toOption] at hnone

end Copies

section Walk
variable (C : Crypto) (asm : Assembly)

/-- The worklist form of the walk: a chain that nothing extends is a leaf, and
any other is replaced by its extensions. -/
inductive Explores : List ValidatedChain → Visit → List ValidatedChain → Visit → Prop
  | done (v : Visit) : Explores [] v [] v
  | leaf {c : ValidatedChain} {todo leaves : List ValidatedChain} {v v₁ v₂ : Visit}
      (offered : offer C c (asm.childrenOf c.headDigest) v = ([], v₁))
      (rest : Explores todo v₁ leaves v₂) : Explores (c :: todo) v (c :: leaves) v₂
  | node {c : ValidatedChain} {todo leaves : List ValidatedChain} {v v₁ v₂ : Visit}
      {passed : List Accepted} (some_passed : passed ≠ [])
      (offered : offer C c (asm.childrenOf c.headDigest) v = (passed, v₁))
      (rest : Explores (passed.map (c.push C) ++ todo) v₁ leaves v₂) :
      Explores (c :: todo) v leaves v₂

/-- The groups not offered yet. -/
def left (v : Visit) : ℕ :=
  ((List.range asm.groups.length).filter (fun i => i ∉ v.visited)).length

variable {C asm}

theorem left_le (asm : Assembly) (v : Visit) : left asm v ≤ asm.groups.length := by
  unfold left
  exact (List.length_filter_le _ _).trans (by simp)

/-- Offering a group that is left leaves one fewer. -/
theorem left_visit {v : Visit} {i : ℕ} (discarded : List Discarded)
    (hi : i < asm.groups.length) (hv : i ∉ v.visited) :
    left asm ⟨i :: v.visited, discarded⟩ < left asm v := by
  unfold left
  have hsub : ((List.range asm.groups.length).filter (fun j => j ∉ i :: v.visited)) =
      ((List.range asm.groups.length).filter (fun j => j ∉ v.visited)).filter (fun j => j ≠ i) := by
    rw [List.filter_filter]
    apply List.filter_congr
    intro j _
    simp
  rw [hsub]
  have hmem : i ∈ (List.range asm.groups.length).filter (fun j => j ∉ v.visited) := by
    simp [hi, hv]
  exact List.length_filter_lt_length_iff_exists.mpr ⟨i, hmem, by simp⟩

theorem offer_left (chain : ValidatedChain) (children : List (ℕ × Group)) (v : Visit)
    (hlt : ∀ x ∈ children, x.1 < asm.groups.length) :
    left asm (offer C chain children v).2 + (offer C chain children v).1.length ≤ left asm v := by
  induction children generalizing v with
  | nil => simp [offer]
  | cons x children ih =>
    obtain ⟨index, group⟩ := x
    have hrest : ∀ x ∈ children, x.1 < asm.groups.length := by
      intro x hx
      exact hlt x (List.mem_cons_of_mem _ hx)
    have hindex : index < asm.groups.length := hlt _ List.mem_cons_self
    unfold offer
    by_cases hv : index ∈ v.visited
    · rw [if_pos hv]
      exact ih v hrest
    · rw [if_neg hv]
      cases successor C chain group.copies with
      | ok accepted =>
        have h := ih { v with visited := index :: v.visited } hrest
        have hless := left_visit v.discarded hindex hv
        dsimp only
        rw [List.length_cons]
        omega
      | error defect =>
        have h := ih ⟨index :: v.visited, v.discarded ++
          [.read group.firstServed chain.nextPosition defect]⟩ hrest
        have hless := left_visit (v.discarded ++
          [.read group.firstServed chain.nextPosition defect]) hindex hv
        dsimp only
        omega

theorem childrenOf_lt (head : Digest) : ∀ x ∈ asm.childrenOf head, x.1 < asm.groups.length := by
  intro x hx
  exact (List.getElem?_eq_some_iff.mp (mem_childrenOf.mp hx).2).1

/-- With fuel for every group left, `descend` ends at a leaf and what it leaves
on the stack is the rest of the worklist. -/
theorem descend_explores (asm : Assembly) (fuel : ℕ) (chain : ValidatedChain) (v : Visit)
    (stack : List ValidatedChain) (hfuel : left asm v < fuel) :
    (descend C asm fuel chain v stack).2.2.length + left asm (descend C asm fuel chain v stack).2.1 ≤
        stack.length + left asm v ∧
      ∀ leaves v₂, Explores C asm (descend C asm fuel chain v stack).2.2
          (descend C asm fuel chain v stack).2.1 leaves v₂ →
        Explores C asm (chain :: stack) v ((descend C asm fuel chain v stack).1 :: leaves) v₂ := by
  induction fuel generalizing chain v stack with
  | zero => omega
  | succ fuel ih =>
    have hleft := offer_left (C := C) chain (asm.childrenOf chain.headDigest) v
      (childrenOf_lt chain.headDigest)
    unfold descend
    cases hoffer : offer C chain (asm.childrenOf chain.headDigest) v with
    | mk passed v₁ =>
      rw [hoffer] at hleft
      cases passed with
      | nil =>
        simp only [List.length_nil] at hleft
        refine ⟨by dsimp only; omega, ?_⟩
        intro leaves v₂ hrest
        exact .leaf hoffer hrest
      | cons next passed =>
        simp only [List.length_cons] at hleft
        obtain ⟨hlen, hgo⟩ := ih (chain.push C next) v₁ (passed.map (chain.push C) ++ stack)
          (by omega)
        refine ⟨?_, ?_⟩
        · rw [List.length_append, List.length_map] at hlen
          dsimp only
          omega
        · intro leaves v₂ hrest
          exact .node (List.cons_ne_nil next passed) hoffer (hgo leaves v₂ hrest)

theorem drain_explores (fuel : ℕ) (stack : List ValidatedChain) (v : Visit)
    (hfuel : stack.length + left asm v < fuel) :
    Explores C asm stack v (drain C asm fuel stack v).1 (drain C asm fuel stack v).2 := by
  induction fuel generalizing stack v with
  | zero => omega
  | succ fuel ih =>
    cases stack with
    | nil => exact .done v
    | cons branch stack =>
      have hle := left_le asm v
      obtain ⟨hlen, hgo⟩ := descend_explores (C := C) asm (asm.groups.length+1) branch v stack
        (by omega)
      rw [List.length_cons] at hfuel
      exact hgo _ _ (ih _ _ (by omega))

/-- The walk from the root is a run of the worklist to its end. -/
theorem branches_explores (C : Crypto) (asm : Assembly) (root : ValidatedChain) (v : Visit) :
    Explores C asm [root] v (branches C asm root v).1 (branches C asm root v).2 := by
  have hle := left_le asm v
  obtain ⟨hlen, hgo⟩ := descend_explores (C := C) asm (asm.groups.length+1) root v [] (by omega)
  refine hgo _ _ (drain_explores _ _ _ ?_)
  rw [List.length_nil] at hlen
  omega

end Walk

section Placed
variable {C : Crypto} {identifier : Identifier}

theorem placement_of_successor (identifier : Identifier) {chain : ValidatedChain} {u : Bytes} {a : Accepted}
    (h : checkSuccessor C chain u .signed = .ok a) :
    ∃ fields, placement C identifier u = .ok (fields, some chain.headDigest) ∧
      a.event.digest = eventDigestOf C fields ∧ a.preimage = signedPreimageOf fields := by
  unfold checkSuccessor at h
  split at h
  case h_4 read hread =>
    simp only [bind_ok_iff, exists_unit_iff, require_ok_iff, decide_eq_true_eq, Prod.exists,
      pure_ok_iff] at h
    obtain ⟨hpred, applied, preimage, -, rfl⟩ := h
    have hdecode : decodeEvent u 0 = .read read := hread
    refine ⟨read.fields, ?_, rfl, rfl⟩
    rw [placement, hdecode, ← hpred]
  all_goals simp at h

theorem placement_of_inception {u : Bytes} {a : Accepted}
    (h : checkInception C u (some identifier) .signed = .ok a) :
    ∃ fields predecessor, placement C identifier u = .ok (fields, predecessor) ∧
      a.event.digest = eventDigestOf C fields ∧ a.preimage = signedPreimageOf fields ∧
      identifierOf C fields = identifier := by
  unfold checkInception at h
  split at h
  case h_4 read hread =>
    simp only [bind_ok_iff, exists_unit_iff, require_ok_iff, Prod.exists, mapError_ok_iff,
      bindInception, pure_ok_iff] at h
    obtain ⟨_, ⟨hserved, -, rfl⟩, p, hp, a', ha, applied, preimage, -, rfl⟩ := h
    have hdecode : decodeEvent u 0 = .read read := hread
    refine ⟨read.fields, some read.header.predecessorDigest, ?_, rfl, rfl, ?_⟩
    · rw [placement, hdecode]
    · have hid : identifier = identifierOf C read.fields := by simpa using hserved
      exact hid.symm
  all_goals simp at h

/-- The group a passing copy belongs to carries the digest of what it passes as. -/
theorem successor_digest {units : List Bytes} {chain : ValidatedChain} {g : Group}
    (hg : GroupOk C identifier units g) {a : Accepted}
    (h : successor C chain g.copies = .ok a) : a.event.digest = g.digest := by
  obtain ⟨u, hu, hok⟩ := successor_ok h
  obtain ⟨fields, hplace, hdig, -⟩ := placement_of_successor identifier hok
  rw [hg.copies, List.mem_filter, decide_eq_true_eq, digestOf_ok hplace] at hu
  rw [hdig]
  exact Option.some.inj hu.2

end Placed

section Offer
variable (C : Crypto) (chain : ValidatedChain)

/-- What an offered group is discarded for, where no copy of it passes. -/
def discardAt (x : ℕ × Group) : Option Discarded :=
  match successor C chain x.2.copies with
  | .ok _ => none
  | .error defect => some (.read x.2.firstServed chain.nextPosition defect)

variable {C chain}

/-- Groups not offered before are all offered: those with a passing copy extend
the chain and the others are discarded, in served order. -/
theorem offer_eq (children : List (ℕ × Group)) (v : Visit)
    (hnodup : (children.map Prod.fst).Nodup) (hnew : ∀ x ∈ children, x.1 ∉ v.visited) :
    offer C chain children v =
      (children.filterMap (fun x => (successor C chain x.2.copies).toOption),
        ⟨(children.map Prod.fst).reverse ++ v.visited,
          v.discarded ++ children.filterMap (discardAt C chain)⟩) := by
  induction children generalizing v with
  | nil => simp [offer]
  | cons x children ih =>
    obtain ⟨index, group⟩ := x
    rw [List.map_cons, List.nodup_cons] at hnodup
    have hindex : index ∉ v.visited := hnew _ List.mem_cons_self
    have hrest : ∀ x ∈ children, x.1 ∉ index :: v.visited := by
      intro x hx hmem
      rcases List.mem_cons.mp hmem with heq | hmem
      · exact hnodup.1 (heq ▸ List.mem_map.mpr ⟨x, hx, rfl⟩)
      · exact hnew x (List.mem_cons_of_mem _ hx) hmem
    unfold offer
    rw [if_neg hindex]
    cases hs : successor C chain group.copies with
    | ok accepted =>
      dsimp only
      rw [ih { v with visited := index :: v.visited } hnodup.2 hrest]
      simp [hs, Except.toOption, discardAt]
    | error defect =>
      dsimp only
      rw [ih ⟨index :: v.visited, _⟩ hnodup.2 hrest]
      simp [hs, Except.toOption, discardAt]

end Offer

theorem eventDigests_push (C : Crypto) (c : ValidatedChain) (a : Accepted) :
    (c.push C a).eventDigests = c.eventDigests ++ [a.event.digest] := by
  simp [ValidatedChain.eventDigests, ValidatedChain.events, ValidatedChain.push,
    ValidatedChain.record]

theorem headDigest_mem (c : ValidatedChain) : c.headDigest ∈ c.eventDigests := by
  have h := List.mem_of_getLast? c.head_eq
  exact List.mem_map.mpr ⟨c.head, h, rfl⟩

/-- Neither chain's digests lead the other's. -/
def Apart (c d : ValidatedChain) : Prop :=
  ¬ c.eventDigests <+: d.eventDigests ∧ ¬ d.eventDigests <+: c.eventDigests

/-- The digest is that of a group offered already. -/
def Met (asm : Assembly) (v : Visit) (d : Digest) : Prop :=
  ∃ i g, i ∈ v.visited ∧ asm.groups[i]? = some g ∧ g.digest = d

structure WalkInv (asm : Assembly) (todo : List ValidatedChain) (v : Visit) : Prop where
  apart : todo.Pairwise Apart
  heads : (todo.map ValidatedChain.headDigest).Nodup
  met : ∀ c ∈ todo, ∀ d ∈ c.eventDigests, Met asm v d
  nodup : ∀ c ∈ todo, c.eventDigests.Nodup
  fresh : ∀ c ∈ todo, ∀ i, (i, c.headDigest) ∈ asm.named → i ∉ v.visited
  closed : ∀ i ∈ v.visited, ∀ p, (i, p) ∈ asm.named → Met asm v p

section Step
variable (C : Crypto) (asm : Assembly) (c : ValidatedChain)

/-- What the groups naming `c`'s head pass as. -/
def extensions : List Accepted :=
  (asm.childrenOf c.headDigest).filterMap (fun x => (successor C c x.2.copies).toOption)

/-- The visit once those groups are offered. -/
def offered (v : Visit) : Visit where
  visited := ((asm.childrenOf c.headDigest).map Prod.fst).reverse ++ v.visited
  discarded := v.discarded ++ (asm.childrenOf c.headDigest).filterMap (discardAt C c)

end Step

section Invariant
variable {C : Crypto} {identifier : Identifier} {units : List Bytes} {asm : Assembly}
  (hasm : Assembled C identifier units asm)
include hasm

omit hasm in
theorem Met.mono {v v' : Visit} (h : ∀ i ∈ v.visited, i ∈ v'.visited) {d : Digest}
    (hd : Met asm v d) : Met asm v' d := by
  obtain ⟨i, g, hi, hg, hgd⟩ := hd
  exact ⟨i, g, h i hi, hg, hgd⟩

/-- A group not offered yet has a digest no chain of the worklist holds. -/
theorem not_met {v : Visit} {i : ℕ} {g : Group} (hi : i ∉ v.visited)
    (hg : asm.groups[i]? = some g) : ¬ Met asm v g.digest := by
  rintro ⟨j, g', hj, hg', hd⟩
  rw [hasm.digest_inj hg' hg hd] at hj
  exact hi hj

/-- One offer, in the worklist. -/
theorem WalkInv.offer_eq {c : ValidatedChain} {todo : List ValidatedChain} {v : Visit}
    (h : WalkInv asm (c :: todo) v) :
    offer C c (asm.childrenOf c.headDigest) v =
      (extensions C asm c, offered C asm c v) := by
  apply ScpCore.Kel.offer_eq _ _ (childrenOf_nodup hasm c.headDigest)
  intro x hx
  exact h.fresh c List.mem_cons_self x.1 (mem_childrenOf.mp hx).1

/-- The extensions of a chain, each with the group it comes from. -/
theorem mem_passed {c : ValidatedChain} {a : Accepted} :
    a ∈ extensions C asm c ↔
      ∃ i g, (i, c.headDigest) ∈ asm.named ∧ asm.groups[i]? = some g ∧
        successor C c g.copies = .ok a ∧ a.event.digest = g.digest := by
  rw [extensions, List.mem_filterMap]
  constructor
  · rintro ⟨⟨i, g⟩, hx, ha⟩
    obtain ⟨hn, hg⟩ := mem_childrenOf.mp hx
    have hok : successor C c g.copies = .ok a := by
      cases hs : successor C c g.copies with
      | error e => simp [hs, Except.toOption] at ha
      | ok a' =>
        simp only [hs, Except.toOption, Option.some.injEq] at ha
        rw [ha]
    have hmem : g ∈ asm.groups := List.mem_of_getElem? hg
    exact ⟨i, g, hn, hg, hok, successor_digest (hasm.group g hmem) hok⟩
  · rintro ⟨i, g, hn, hg, hok, -⟩
    refine ⟨(i, g), mem_childrenOf.mpr ⟨hn, hg⟩, ?_⟩
    simp [hok, Except.toOption]

/-- The extensions of one chain carry pairwise different digests. -/
theorem passed_nodup (c : ValidatedChain) :
    (extensions C asm c).Pairwise (fun a b => a.event.digest ≠ b.event.digest) := by
  have hkids : (asm.childrenOf c.headDigest).Pairwise (fun x y => x.1 ≠ y.1) := by
    have h := childrenOf_nodup hasm c.headDigest
    exact List.pairwise_map.mp h
  have hin : (asm.childrenOf c.headDigest).Pairwise (fun x y =>
      x.1 ≠ y.1 ∧ x ∈ asm.childrenOf c.headDigest ∧ y ∈ asm.childrenOf c.headDigest) := by
    exact hkids.imp_of_mem (fun hx hy hne => ⟨hne, hx, hy⟩)
  refine hin.filterMap _ ?_
  intro x y hxy a ha b hb hdig
  obtain ⟨hne, hx, hy⟩ := hxy
  have hdigest (z : ℕ × Group) (hz : z ∈ asm.childrenOf c.headDigest) (e : Accepted)
      (he : (successor C c z.2.copies).toOption = some e) : e.event.digest = z.2.digest := by
    have hok : successor C c z.2.copies = .ok e := by
      cases hs : successor C c z.2.copies with
      | error err => simp [hs, Except.toOption] at he
      | ok e' =>
        simp only [hs, Except.toOption, Option.some.injEq] at he
        rw [he]
    exact successor_digest (hasm.group z.2 (List.mem_of_getElem? (mem_childrenOf.mp hz).2)) hok
  apply hne
  apply hasm.digest_inj (mem_childrenOf.mp hx).2 (mem_childrenOf.mp hy).2
  rw [← hdigest x hx a ha, ← hdigest y hy b hb, hdig]

theorem mem_visited {c : ValidatedChain} {v : Visit} {i : ℕ} :
    i ∈ (offered C asm c v).visited ↔
      (i, c.headDigest) ∈ asm.named ∨ i ∈ v.visited := by
  rw [offered, List.mem_append, List.mem_reverse, List.mem_map]
  constructor
  · intro h
    rcases h with ⟨x, hx, rfl⟩ | h
    · exact .inl (mem_childrenOf.mp hx).1
    · exact .inr h
  · intro h
    rcases h with h | h
    · obtain ⟨g, _, hg, _⟩ := hasm.named _ h
      exact .inl ⟨(i, g), mem_childrenOf.mpr ⟨h, hg⟩, rfl⟩
    · exact .inr h

/-- What extends a chain of the worklist carries a digest not met before. -/
theorem WalkInv.passed_not_met {c : ValidatedChain} {todo : List ValidatedChain} {v : Visit}
    (h : WalkInv asm (c :: todo) v) {a : Accepted}
    (ha : a ∈ extensions C asm c) : ¬ Met asm v a.event.digest := by
  obtain ⟨i, g, hn, hg, -, hd⟩ := (mem_passed hasm).mp ha
  rw [hd]
  exact not_met hasm (h.fresh c List.mem_cons_self i hn) hg

omit hasm in
theorem apart_push {c : ValidatedChain} {a b : Accepted} (h : a.event.digest ≠ b.event.digest) :
    Apart (c.push C a) (c.push C b) := by
  unfold Apart
  rw [eventDigests_push, eventDigests_push, List.prefix_append_right_inj,
    List.prefix_append_right_inj]
  simp [h, h.symm]

omit hasm in
/-- A chain apart from another stays apart from what extends it by an unmet digest. -/
theorem Apart.push {c d : ValidatedChain} (h : Apart c d) {a : Accepted}
    (ha : a.event.digest ∉ d.eventDigests) : Apart (c.push C a) d := by
  unfold Apart
  rw [eventDigests_push]
  constructor
  · intro hp
    exact ha (hp.subset (by simp))
  · intro hp
    rcases List.prefix_concat_iff.mp hp with heq | hp
    · exact ha (by simp [heq])
    · exact h.2 hp

/-- One offer keeps the invariant, whatever passed. -/
theorem WalkInv.step {c : ValidatedChain} {todo : List ValidatedChain} {v : Visit}
    (h : WalkInv asm (c :: todo) v) :
    WalkInv asm ((extensions C asm c).map (c.push C) ++ todo)
      (offered C asm c v) := by
  have hmono {d : Digest} (hd : Met asm v d) : Met asm
      (offered C asm c v) d := by
    exact hd.mono (fun i hi => List.mem_append_right _ hi)
  have hc : c ∈ c :: todo := List.mem_cons_self
  have htodo {y : ValidatedChain} (hy : y ∈ todo) : y ∈ c :: todo := List.mem_cons_of_mem _ hy
  have hapart := List.pairwise_cons.mp h.apart
  have hheads := List.nodup_cons.mp (List.map_cons ▸ h.heads)
  -- A digest that extends `c` is on no chain of the worklist.
  have hnot {a : Accepted} (ha : a ∈ extensions C asm c) {y : ValidatedChain} (hy : y ∈ c :: todo) :
      a.event.digest ∉ y.eventDigests :=
    fun hmem => h.passed_not_met hasm ha (h.met y hy _ hmem)
  refine ⟨?_, ?_, ?_, ?_, ?_, ?_⟩
  · rw [List.pairwise_append]
    refine ⟨?_, hapart.2, ?_⟩
    · rw [List.pairwise_map]
      exact (passed_nodup hasm c).imp apart_push
    · intro x hx y hy
      obtain ⟨a, ha, rfl⟩ := List.mem_map.mp hx
      exact (hapart.1 y hy).push (hnot ha (htodo hy))
  · rw [List.map_append, List.nodup_append]
    refine ⟨?_, hheads.2, ?_⟩
    · rw [List.map_map, List.Nodup, List.pairwise_map]
      refine (passed_nodup hasm c).imp ?_
      intro a b hab
      simpa only [Function.comp_apply, headDigest_push] using hab
    · intro d hd e he heq
      rw [List.map_map] at hd
      obtain ⟨a, ha, rfl⟩ := List.mem_map.mp hd
      obtain ⟨y, hy, rfl⟩ := List.mem_map.mp he
      rw [Function.comp_apply, headDigest_push] at heq
      exact hnot ha (htodo hy) (heq ▸ headDigest_mem y)
  · intro x hx d hd
    rcases List.mem_append.mp hx with hx | hx
    · obtain ⟨a, ha, rfl⟩ := List.mem_map.mp hx
      rw [eventDigests_push, List.mem_append, List.mem_singleton] at hd
      rcases hd with hd | rfl
      · exact hmono (h.met c hc d hd)
      · obtain ⟨i, g, hn, hg, -, hd⟩ := (mem_passed hasm).mp ha
        exact ⟨i, g, (mem_visited hasm).mpr (.inl hn), hg, hd.symm⟩
    · exact hmono (h.met x (htodo hx) d hd)
  · intro x hx
    rcases List.mem_append.mp hx with hx | hx
    · obtain ⟨a, ha, rfl⟩ := List.mem_map.mp hx
      rw [eventDigests_push, List.nodup_append]
      refine ⟨h.nodup c hc, List.nodup_singleton _, ?_⟩
      intro d hd e he heq
      rw [List.mem_singleton.mp he] at heq
      exact hnot ha hc (heq ▸ hd)
    · exact h.nodup x (htodo hx)
  · intro x hx i hn hvisited
    rcases List.mem_append.mp hx with hx | hx
    · obtain ⟨a, ha, rfl⟩ := List.mem_map.mp hx
      rw [headDigest_push] at hn
      rcases (mem_visited hasm).mp hvisited with hkid | hold
      · have heq := hasm.named_inj hn hkid
        exact hnot ha hc (heq ▸ headDigest_mem c)
      · exact h.passed_not_met hasm ha (h.closed i hold _ hn)
    · rcases (mem_visited hasm).mp hvisited with hkid | hold
      · have heq := hasm.named_inj hn hkid
        exact hheads.1 (List.mem_map.mpr ⟨x, hx, heq⟩)
      · exact h.fresh x (htodo hx) i hn hold
  · intro i hi p hn
    rcases (mem_visited hasm).mp hi with hkid | hold
    · rw [hasm.named_inj hn hkid]
      exact hmono (h.met c hc _ (headDigest_mem c))
    · exact hmono (h.closed i hold p hn)

end Invariant

end ScpCore.Kel
