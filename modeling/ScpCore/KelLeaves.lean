import ScpCore.KelWalk

/-! Where the walk ends. Its leaves are the chains that grow from the worklist
and that nothing extends, and every group it offered is on a leaf or discarded. -/

namespace ScpCore.Kel

section Leaves
variable (C : Crypto) (asm : Assembly)

/-- One group of the assembly extends `c` to `d`. -/
def Extends (c d : ValidatedChain) : Prop := ∃ a ∈ extensions C asm c, d = c.push C a

/-- The chains that groups of the assembly extend `c` to. -/
def Grows : ValidatedChain → ValidatedChain → Prop := Relation.ReflTransGen (Extends C asm)

/-- What the visit discarded: each offered group on none of the chains, once. -/
structure Accounted (chains : List ValidatedChain) (v : Visit) : Prop where
  met : ∀ c ∈ chains, ∀ d ∈ c.eventDigests, Met asm v d
  nodup : (v.discarded.map Discarded.servedIndex).Nodup
  mem : ∀ n, n ∈ v.discarded.map Discarded.servedIndex ↔ ∃ i ∈ v.visited, ∃ g,
    asm.groups[i]? = some g ∧ g.firstServed = n ∧ ∀ c ∈ chains, g.digest ∉ c.eventDigests

variable {C asm}

theorem Grows.digests {c d : ValidatedChain} (h : Grows C asm c d) :
    c.eventDigests <+: d.eventDigests := by
  induction h with
  | refl => exact List.prefix_rfl
  | tail _ hstep ih =>
    obtain ⟨a, -, rfl⟩ := hstep
    rw [eventDigests_push]
    exact ih.trans (List.prefix_append _ _)

theorem grows_of_no_extension {c d : ValidatedChain} (hc : extensions C asm c = [])
    (h : Grows C asm c d) : d = c := by
  rcases Relation.ReflTransGen.cases_head h with heq | ⟨e, ⟨a, ha, -⟩, -⟩
  · exact heq.symm
  · rw [hc] at ha
    cases ha

/-- A chain that something extends reaches a leaf through one of its extensions. -/
theorem grows_leaf_iff {c l : ValidatedChain} (hc : extensions C asm c ≠ [])
    (hl : extensions C asm l = []) :
    Grows C asm c l ↔ ∃ d ∈ (extensions C asm c).map (c.push C), Grows C asm d l := by
  constructor
  · intro h
    rcases Relation.ReflTransGen.cases_head h with heq | ⟨d, ⟨a, ha, rfl⟩, hd⟩
    · rw [← heq] at hl
      exact absurd hl hc
    · exact ⟨_, List.mem_map.mpr ⟨a, ha, rfl⟩, hd⟩
  · intro h
    obtain ⟨d, hd, hl⟩ := h
    obtain ⟨a, ha, rfl⟩ := List.mem_map.mp hd
    exact Relation.ReflTransGen.head ⟨a, ha, rfl⟩ hl

end Leaves

section Run
variable {C : Crypto} {identifier : Identifier} {units : List Bytes} {asm : Assembly}
  (hasm : Assembled C identifier units asm)
include hasm

/-- The leaves of a run of the worklist. -/
theorem mem_leaves {todo leaves : List ValidatedChain} {v v₂ : Visit}
    (h : Explores C asm todo v leaves v₂) (hinv : WalkInv asm todo v) (l : ValidatedChain) :
    l ∈ leaves ↔ extensions C asm l = [] ∧ ∃ c ∈ todo, Grows C asm c l := by
  induction h with
  | done v => simp
  | @leaf c todo leaves v v₁ v₂ hoffer _ ih =>
    rw [hinv.offer_eq hasm] at hoffer
    obtain ⟨hnil, rfl⟩ := Prod.mk.inj hoffer
    have hnext := hinv.step hasm
    rw [hnil, List.map_nil, List.nil_append] at hnext
    rw [List.mem_cons, ih hnext]
    constructor
    · intro h
      rcases h with rfl | ⟨hl, d, hd, hgrows⟩
      · exact ⟨hnil, l, List.mem_cons_self, .refl⟩
      · exact ⟨hl, d, List.mem_cons_of_mem _ hd, hgrows⟩
    · intro h
      obtain ⟨hl, d, hd, hgrows⟩ := h
      rcases List.mem_cons.mp hd with rfl | hd
      · exact .inl (grows_of_no_extension hnil hgrows)
      · exact .inr ⟨hl, d, hd, hgrows⟩
  | @node c todo leaves v v₁ v₂ passed hne hoffer _ ih =>
    rw [hinv.offer_eq hasm] at hoffer
    obtain ⟨rfl, rfl⟩ := Prod.mk.inj hoffer
    rw [ih (hinv.step hasm)]
    constructor
    · intro h
      obtain ⟨hl, d, hd, hgrows⟩ := h
      refine ⟨hl, ?_⟩
      rcases List.mem_append.mp hd with hd | hd
      · exact ⟨c, List.mem_cons_self, (grows_leaf_iff hne hl).mpr ⟨d, hd, hgrows⟩⟩
      · exact ⟨d, List.mem_cons_of_mem _ hd, hgrows⟩
    · intro h
      obtain ⟨hl, d, hd, hgrows⟩ := h
      refine ⟨hl, ?_⟩
      rcases List.mem_cons.mp hd with rfl | hd
      · obtain ⟨e, he, hgrows⟩ := (grows_leaf_iff hne hl).mp hgrows
        exact ⟨e, List.mem_append_left _ he, hgrows⟩
      · exact ⟨d, List.mem_append_right _ hd, hgrows⟩

/-- A group offered once stays offered. -/
theorem visited_kept {todo leaves : List ValidatedChain} {v v₂ : Visit}
    (h : Explores C asm todo v leaves v₂) (hinv : WalkInv asm todo v) {i : ℕ}
    (hi : i ∈ v.visited) : i ∈ v₂.visited := by
  induction h with
  | done v => exact hi
  | @leaf c todo leaves v v₁ v₂ hoffer hrest ih =>
    rw [hinv.offer_eq hasm] at hoffer
    obtain ⟨hnil, rfl⟩ := Prod.mk.inj hoffer
    have hnext := hinv.step hasm
    rw [hnil, List.map_nil, List.nil_append] at hnext
    exact ih hnext ((mem_visited hasm).mpr (.inr hi))
  | @node c todo leaves v v₁ v₂ passed hne hoffer _ ih =>
    rw [hinv.offer_eq hasm] at hoffer
    obtain ⟨rfl, rfl⟩ := Prod.mk.inj hoffer
    exact ih (hinv.step hasm) ((mem_visited hasm).mpr (.inr hi))

theorem leaves_nodup {todo leaves : List ValidatedChain} {v v₂ : Visit}
    (h : Explores C asm todo v leaves v₂) (hinv : WalkInv asm todo v) :
    ∀ l ∈ leaves, l.eventDigests.Nodup := by
  induction h with
  | done v => simp
  | @leaf c todo leaves v v₁ v₂ hoffer hrest ih =>
    have hc := hinv.nodup c List.mem_cons_self
    rw [hinv.offer_eq hasm] at hoffer
    obtain ⟨hnil, rfl⟩ := Prod.mk.inj hoffer
    have hnext := hinv.step hasm
    rw [hnil, List.map_nil, List.nil_append] at hnext
    intro l hl
    rcases List.mem_cons.mp hl with rfl | hl
    · exact hc
    · exact ih hnext l hl
  | @node c todo leaves v v₁ v₂ passed hne hoffer _ ih =>
    rw [hinv.offer_eq hasm] at hoffer
    obtain ⟨rfl, rfl⟩ := Prod.mk.inj hoffer
    exact ih (hinv.step hasm)

/-- A chain of different digests that were all met has an event for each of as
many units at most. -/
theorem len_le_units {c : ValidatedChain} {v : Visit} (hnodup : c.eventDigests.Nodup)
    (hmet : ∀ d ∈ c.eventDigests, Met asm v d) : c.len ≤ units.length := by
  have hsub : c.eventDigests ⊆ units.filterMap (digestOf C identifier) := by
    intro d hd
    obtain ⟨i, g, -, hg, rfl⟩ := hmet d hd
    obtain ⟨fields, predecessor, hplace, hdig, -⟩ :=
      (hasm.group g (List.mem_of_getElem? hg)).placed
    have hfirst : g.copies.first ∈ g.copies.all := List.mem_cons_self
    rw [(hasm.group g (List.mem_of_getElem? hg)).copies, List.mem_filter, decide_eq_true_eq] at hfirst
    exact List.mem_filterMap.mpr ⟨_, hfirst.1, hfirst.2⟩
  calc c.len = c.eventDigests.length := c.length_eventDigests.symm
    _ ≤ (units.filterMap (digestOf C identifier)).length := (hnodup.subperm hsub).length_le
    _ ≤ units.length := List.length_filterMap_le _ _

/-- No leaf leads another. -/
theorem leaves_apart {todo leaves : List ValidatedChain} {v v₂ : Visit}
    (h : Explores C asm todo v leaves v₂) (hinv : WalkInv asm todo v) :
    leaves.Pairwise Apart := by
  induction h with
  | done v => exact List.Pairwise.nil
  | @leaf c todo leaves v v₁ v₂ hoffer hrest ih =>
    rw [hinv.offer_eq hasm] at hoffer
    obtain ⟨hnil, rfl⟩ := Prod.mk.inj hoffer
    have hnext := hinv.step hasm
    rw [hnil, List.map_nil, List.nil_append] at hnext
    refine List.pairwise_cons.mpr ⟨?_, ih hnext⟩
    intro l hl
    obtain ⟨-, d, hd, hgrows⟩ := (mem_leaves hasm hrest hnext l).mp hl
    have hapart := (List.pairwise_cons.mp hinv.apart).1 d hd
    -- The chain the leaf grows from is apart from `c`, so the leaf is as well.
    constructor
    · intro hp
      rcases List.prefix_or_prefix_of_prefix hp hgrows.digests with hp | hp
      · exact hapart.1 hp
      · exact hapart.2 hp
    · intro hp
      exact hapart.2 (hgrows.digests.trans hp)
  | @node c todo leaves v v₁ v₂ passed hne hoffer _ ih =>
    rw [hinv.offer_eq hasm] at hoffer
    obtain ⟨rfl, rfl⟩ := Prod.mk.inj hoffer
    exact ih (hinv.step hasm)

/-- The unit first served for a group carries the group's digest. -/
theorem firstServed_unit {g : Group} (hg : g ∈ asm.groups) :
    ∃ u, units[g.firstServed]? = some u ∧ digestOf C identifier u = some g.digest := by
  obtain ⟨hlt, hp, -⟩ := List.findIdx?_eq_some_iff_getElem.mp (hasm.group g hg).first
  exact ⟨units[g.firstServed], List.getElem?_eq_getElem hlt, by simpa using hp⟩

/-- Groups are served first at different indices. -/
theorem firstServed_inj {i j : ℕ} {g g' : Group} (hi : asm.groups[i]? = some g)
    (hj : asm.groups[j]? = some g') (h : g.firstServed = g'.firstServed) : i = j := by
  obtain ⟨u, hu, hd⟩ := firstServed_unit hasm (List.mem_of_getElem? hi)
  obtain ⟨u', hu', hd'⟩ := firstServed_unit hasm (List.mem_of_getElem? hj)
  rw [h, hu', Option.some.injEq] at hu
  rw [← hu, hd', Option.some.injEq] at hd
  exact hasm.digest_inj hi hj hd.symm

omit hasm in
/-- The groups discarded where `c` is extended, by the index each was served at. -/
theorem mem_discarded_kids {c : ValidatedChain} {n : ℕ} :
    n ∈ ((asm.childrenOf c.headDigest).filterMap (discardAt C c)).map Discarded.servedIndex ↔
      ∃ i g defect, (i, c.headDigest) ∈ asm.named ∧ asm.groups[i]? = some g ∧
        g.firstServed = n ∧ successor C c g.copies = .error defect := by
  rw [List.map_filterMap, List.mem_filterMap]
  constructor
  · intro h
    obtain ⟨⟨i, g⟩, hx, hdis⟩ := h
    obtain ⟨hn, hg⟩ := mem_childrenOf.mp hx
    cases hs : successor C c g.copies with
    | ok a => simp [discardAt, hs] at hdis
    | error defect =>
      simp only [discardAt, hs, Option.map_some, Option.some.injEq] at hdis
      exact ⟨i, g, defect, hn, hg, hdis, hs⟩
  · intro h
    obtain ⟨i, g, defect, hn, hg, hfirst, hs⟩ := h
    refine ⟨(i, g), mem_childrenOf.mpr ⟨hn, hg⟩, ?_⟩
    simp [discardAt, hs, Discarded.read, hfirst]

theorem discarded_kids_nodup (c : ValidatedChain) :
    (((asm.childrenOf c.headDigest).filterMap (discardAt C c)).map
      Discarded.servedIndex).Nodup := by
  have hkids : (asm.childrenOf c.headDigest).Pairwise (fun x y =>
      x.2.firstServed ≠ y.2.firstServed) := by
    have h := List.pairwise_map.mp (childrenOf_nodup hasm c.headDigest)
    refine h.imp_of_mem ?_
    intro x y hx hy hne hfirst
    exact hne (firstServed_inj hasm (mem_childrenOf.mp hx).2 (mem_childrenOf.mp hy).2 hfirst)
  rw [List.map_filterMap]
  refine hkids.filterMap _ ?_
  intro x y hne n hn m hm
  have hindex (z : ℕ × Group) (k : ℕ)
      (hk : (discardAt C c z).map Discarded.servedIndex = some k) : k = z.2.firstServed := by
    unfold discardAt at hk
    split at hk
    · cases hk
    · exact (Option.some.inj hk).symm
  rw [hindex x n hn, hindex y m hm]
  exact hne

/-- One offer keeps the account: what passed is on the chains that replace `c`,
and what failed is discarded. -/
theorem Accounted.step {done todo : List ValidatedChain} {c : ValidatedChain} {v : Visit}
    (h : Accounted asm (done ++ c :: todo) v) (hinv : WalkInv asm (c :: todo) v)
    {next : List ValidatedChain} (hnext : ∀ x, x ∈ next ↔ x ∈ done ∨ x ∈ todo ∨
      (extensions C asm c = [] ∧ x = c) ∨ ∃ a ∈ extensions C asm c, x = c.push C a) :
    Accounted asm next (offered C asm c v) := by
  have hcmem : c ∈ done ++ c :: todo := by simp
  have hfresh {i : ℕ} (hn : (i, c.headDigest) ∈ asm.named) : i ∉ v.visited :=
    hinv.fresh c List.mem_cons_self i hn
  -- A digest of the new chains is met, or one that passed here.
  have hold {x : ValidatedChain} (hx : x ∈ next) {d : Digest} (hd : d ∈ x.eventDigests) :
      (∃ y ∈ done ++ c :: todo, d ∈ y.eventDigests) ∨
        ∃ a ∈ extensions C asm c, d = a.event.digest := by
    rcases (hnext x).mp hx with hx | hx | ⟨-, rfl⟩ | ⟨a, ha, rfl⟩
    · exact .inl ⟨x, by simp [hx], hd⟩
    · exact .inl ⟨x, by simp [hx], hd⟩
    · exact .inl ⟨x, hcmem, hd⟩
    · rw [eventDigests_push, List.mem_append, List.mem_singleton] at hd
      rcases hd with hd | hd
      · exact .inl ⟨c, hcmem, hd⟩
      · exact .inr ⟨a, ha, hd⟩
  have hkept {y : ValidatedChain} (hy : y ∈ done ++ c :: todo) {d : Digest}
      (hd : d ∈ y.eventDigests) : ∃ x ∈ next, d ∈ x.eventDigests := by
    rw [List.mem_append, List.mem_cons] at hy
    rcases hy with hy | rfl | hy
    · exact ⟨y, (hnext y).mpr (.inl hy), hd⟩
    · cases he : extensions C asm y with
      | nil => exact ⟨y, (hnext y).mpr (.inr (.inr (.inl ⟨he, rfl⟩))), hd⟩
      | cons a rest =>
        have ha : a ∈ extensions C asm y := by simp [he]
        refine ⟨y.push C a, (hnext _).mpr (.inr (.inr (.inr ⟨a, ha, rfl⟩))), ?_⟩
        rw [eventDigests_push]
        exact List.mem_append_left _ hd
    · exact ⟨y, (hnext y).mpr (.inr (.inl hy)), hd⟩
  refine ⟨?_, ?_, ?_⟩
  · intro x hx d hd
    rcases hold hx hd with ⟨y, hy, hd⟩ | ⟨a, ha, rfl⟩
    · exact (h.met y hy d hd).mono (fun i hi => (mem_visited hasm).mpr (.inr hi))
    · obtain ⟨i, g, hn, hg, -, hdig⟩ := (mem_passed hasm).mp ha
      exact ⟨i, g, (mem_visited hasm).mpr (.inl hn), hg, hdig.symm⟩
  · rw [offered, List.map_append, List.nodup_append]
    refine ⟨h.nodup, discarded_kids_nodup hasm c, ?_⟩
    intro n hn m hm heq
    obtain ⟨i, hi, g, hg, hfirst, -⟩ := (h.mem n).mp hn
    obtain ⟨j, g', -, hj, hg', hfirst', -⟩ := mem_discarded_kids.mp hm
    have hij := firstServed_inj hasm hg hg' (by rw [hfirst, hfirst', heq])
    exact hfresh hj (hij ▸ hi)
  · intro n
    rw [offered, List.map_append, List.mem_append, h.mem n, mem_discarded_kids]
    change _ ↔ ∃ i ∈ (offered C asm c v).visited, _
    constructor
    · intro hn
      rcases hn with ⟨i, hi, g, hg, hfirst, hoff⟩ | ⟨i, g, defect, hn, hg, hfirst, hs⟩
      · refine ⟨i, (mem_visited hasm).mpr (.inr hi), g, hg, hfirst, ?_⟩
        intro x hx hd
        rcases hold hx hd with ⟨y, hy, hd⟩ | ⟨a, ha, hd⟩
        · exact hoff y hy hd
        · exact hinv.passed_not_met hasm ha ⟨i, g, hi, hg, hd⟩
      · refine ⟨i, (mem_visited hasm).mpr (.inl hn), g, hg, hfirst, ?_⟩
        intro x hx hd
        rcases hold hx hd with ⟨y, hy, hd⟩ | ⟨a, ha, hd⟩
        · exact not_met hasm (hfresh hn) hg (h.met y hy _ hd)
        · obtain ⟨j, g', -, hg', hok, hdig⟩ := (mem_passed hasm).mp ha
          have hij := hasm.digest_inj hg hg' (by rw [hd, hdig])
          rw [hij, hg', Option.some.injEq] at hg
          rw [← hg, hok] at hs
          cases hs
    · intro hn
      obtain ⟨i, hi, g, hg, hfirst, hoff⟩ := hn
      rcases (mem_visited hasm).mp hi with hn | hi
      · right
        cases hs : successor C c g.copies with
        | error defect => exact ⟨i, g, defect, hn, hg, hfirst, hs⟩
        | ok a =>
          exfalso
          have ha : a ∈ extensions C asm c := (mem_passed hasm).mpr ⟨i, g, hn, hg, hs,
            successor_digest (hasm.group g (List.mem_of_getElem? hg)) hs⟩
          have hx := (hnext (c.push C a)).mpr (.inr (.inr (.inr ⟨a, ha, rfl⟩)))
          refine hoff _ hx ?_
          rw [eventDigests_push, ← successor_digest (hasm.group g (List.mem_of_getElem? hg)) hs]
          simp
      · left
        refine ⟨i, hi, g, hg, hfirst, ?_⟩
        intro y hy hd
        obtain ⟨x, hx, hd⟩ := hkept hy hd
        exact hoff x hx hd

/-- A run of the worklist keeps the account. -/
theorem Accounted.run {todo leaves : List ValidatedChain} {v v₂ : Visit}
    (h : Explores C asm todo v leaves v₂) (hinv : WalkInv asm todo v)
    (done : List ValidatedChain) (hacc : Accounted asm (done ++ todo) v) :
    Accounted asm (done ++ leaves) v₂ := by
  induction h generalizing done with
  | done v => exact hacc
  | @leaf c todo leaves v v₁ v₂ hoffer hrest ih =>
    rw [hinv.offer_eq hasm] at hoffer
    obtain ⟨hnil, rfl⟩ := Prod.mk.inj hoffer
    have hnext := hinv.step hasm
    rw [hnil, List.map_nil, List.nil_append] at hnext
    have hstep : Accounted asm ((done ++ [c]) ++ todo) (offered C asm c v) := by
      apply hacc.step hasm hinv
      intro x
      have hmem : x ∈ (done ++ [c]) ++ todo ↔ x ∈ done ∨ x ∈ todo ∨ x = c := by
        simp [or_comm]
      simp only [hmem, hnil, true_and, List.not_mem_nil, false_and, exists_false, or_false]
    have h := ih hnext (done ++ [c]) hstep
    rwa [List.append_assoc] at h
  | @node c todo leaves v v₁ v₂ passed hne hoffer _ ih =>
    rw [hinv.offer_eq hasm] at hoffer
    obtain ⟨rfl, rfl⟩ := Prod.mk.inj hoffer
    apply ih (hinv.step hasm) done
    apply hacc.step hasm hinv
    intro x
    have hmap : x ∈ (extensions C asm c).map (c.push C) ↔
        ∃ a ∈ extensions C asm c, x = c.push C a := by
      simp [eq_comm]
    rw [List.mem_append, List.mem_append, hmap]
    simp only [hne, false_and, false_or]
    exact or_congr_right Or.comm

end Run

end ScpCore.Kel
