import ScpCore.KelReports

/-! The chains an entry returns are the longest its units build: each starts at
the inception, none can be extended by a unit served, and the order the units
were served in decides only which copy carries an event. -/

namespace ScpCore.Kel

/-- The chains that units of the entry build. -/
inductive BuiltFrom (C : Crypto) (identifier : Identifier) (units : List Bytes) :
    ValidatedChain → Prop
  | inception {u : Bytes} {a : Accepted} (served : u ∈ units)
      (checked : checkInception C u (some identifier) .signed = .ok a) :
      BuiltFrom C identifier units (.fromInception C identifier a)
  | push {c : ValidatedChain} {u : Bytes} {a : Accepted} (before : BuiltFrom C identifier units c)
      (served : u ∈ units) (checked : checkSuccessor C c u .signed = .ok a) :
      BuiltFrom C identifier units (c.push C a)

section BuiltFrom
variable {C : Crypto} {identifier : Identifier} {units : List Bytes}

theorem BuiltFrom.mono {units' : List Bytes} (h : ∀ u ∈ units, u ∈ units') {c : ValidatedChain}
    (hc : BuiltFrom C identifier units c) : BuiltFrom C identifier units' c := by
  induction hc with
  | inception hu hok => exact .inception (h _ hu) hok
  | push _ hu hok ih => exact .push ih (h _ hu) hok

theorem BuiltFrom.inception_served {c : ValidatedChain} (h : BuiltFrom C identifier units c) :
    ∃ u a, u ∈ units ∧ checkInception C u (some identifier) .signed = .ok a := by
  induction h with
  | @inception u a hu hok => exact ⟨u, a, hu, hok⟩
  | push _ _ _ ih => exact ih

theorem fromInception_strip {a b : Accepted} (h : a.strip = b.strip) :
    (ValidatedChain.fromInception C identifier a).strip =
      (ValidatedChain.fromInception C identifier b).strip := by
  unfold ValidatedChain.fromInception
  rw [ValidatedChain.strip_record, ValidatedChain.strip_record, h]
  congr 1
  exact congrArg (fun x : Accepted => ValidatedChain.mk identifier x.event [] [] [] [] [] []) h

theorem successor_preimage {c : ValidatedChain} {u : Bytes} {a : Accepted} (hu : u ∈ units)
    (h : checkSuccessor C c u .signed = .ok a) : a.preimage ∈ preimagesOf units := by
  obtain ⟨fields, hplace, -, hpre⟩ := placement_of_successor 0 h
  rw [hpre]
  exact preimage_served hu hplace

theorem inception_preimage {u : Bytes} {a : Accepted} (hu : u ∈ units)
    (h : checkInception C u (some identifier) .signed = .ok a) :
    a.preimage ∈ preimagesOf units := by
  obtain ⟨fields, predecessor, hplace, -, hpre, -⟩ := placement_of_inception h
  rw [hpre]
  exact preimage_served hu hplace

/-- The head of a served chain hashes a served preimage. -/
theorem BuiltFrom.headDigest {c : ValidatedChain} (h : BuiltFrom C identifier units c) :
    ∃ signed ∈ preimagesOf units, c.headDigest = C.sha256 signed := by
  cases h with
  | @inception u a hu hok =>
    exact ⟨a.preimage, inception_preimage hu hok, (digest_of_inception hok).1⟩
  | @push c u a _ hu hok =>
    refine ⟨a.preimage, successor_preimage hu hok, ?_⟩
    rw [headDigest_push, digest_of_successor hok]

variable {asm : Assembly} {i : ℕ} {g : Group} {a : Accepted}
  (hasm : Assembled C identifier units asm)
include hasm

/-- What a group passes as was served. -/
theorem extension_served {c : ValidatedChain} {b : Accepted} (h : b ∈ extensions C asm c) :
    ∃ u ∈ units, checkSuccessor C c u .signed = .ok b := by
  obtain ⟨j, g', -, hg', hok, -⟩ := (mem_passed hasm).mp h
  obtain ⟨u, hu, hchecked⟩ := successor_ok hok
  exact ⟨u, (copies_served hasm (List.mem_of_getElem? hg') hu).1, hchecked⟩

theorem Grows.served {c d : ValidatedChain} (h : Grows C asm c d)
    (hc : BuiltFrom C identifier units c) :
    BuiltFrom C identifier units d ∧ d.inception = c.inception := by
  induction h with
  | refl => exact ⟨hc, rfl⟩
  | tail _ hstep ih =>
    obtain ⟨b, hb, rfl⟩ := hstep
    obtain ⟨u, hu, hok⟩ := extension_served hasm hb
    exact ⟨.push ih.1 hu hok, ih.2⟩

variable (hcf : CollisionFree C (preimagesOf units))
  (hzero : ∀ signed ∈ preimagesOf units, C.sha256 signed ≠ 0)
  (hroot : Rooted C identifier asm i g a)
include hcf hzero hroot

/-- A unit that passes past a served chain extends it in the assembly, by some
copy of the same event. -/
theorem extension_of_successor {c : ValidatedChain} (hc : BuiltFrom C identifier units c) {u : Bytes}
    (hu : u ∈ units) {b : Accepted} (h : checkSuccessor C c u .signed = .ok b) :
    ∃ b' ∈ extensions C asm c, b'.event.digest = b.event.digest := by
  obtain ⟨fields, hplace, hdig, hpre⟩ := placement_of_successor identifier h
  obtain ⟨j, g', hg', hcopy, hgd, -, hwhere⟩ := group_of_unit hasm hcf hu hplace
  obtain ⟨b', hb'⟩ := successor_of_copy hcopy h
  have hd := successor_digest (hasm.group g' (List.mem_of_getElem? hg')) hb'
  have hnamed : (j, c.headDigest) ∈ asm.named := by
    rcases hwhere with ⟨hlater, -⟩ | ⟨d, hd, hn⟩
    · -- The head is no zero digest, and a later event is not the inception.
      exfalso
      obtain ⟨signed, hsigned, hhead⟩ := hc.headDigest
      obtain ⟨u₀, hu₀, hok₀, -, hpre₀⟩ := hroot.copy hasm
      have hne : c.headDigest ≠ 0 := hhead ▸ hzero signed hsigned
      simp only [Assembly.isLater, Option.elim_some, Bool.and_eq_false_iff,
        decide_eq_false_iff_not, not_not, hne, false_or] at hlater
      apply inception_ne_successor hok₀ h
      apply hcf.identifier hpre₀ (hpre ▸ preimage_served hu hplace)
      change C.sha256 (kelIdSeparator ++ a.preimage) = C.sha256 (kelIdSeparator ++ b.preimage)
      rw [← (digest_of_inception hok₀).2, hpre]
      exact hlater.symm
    · rw [Option.some.inj hd]
      exact hn
  refine ⟨b', (mem_passed hasm).mpr ⟨j, g', hnamed, hg', hb', hd⟩, ?_⟩
  rw [hd, hgd, hdig]

/-- Every chain the units build grows from the root, up to the copies. -/
theorem BuiltFrom.grows {c : ValidatedChain} (h : BuiltFrom C identifier units c) :
    ∃ d, Grows C asm (.fromInception C identifier a) d ∧ d.strip = c.strip := by
  obtain ⟨u₀, hu₀, hok₀, -, hpre₀⟩ := hroot.copy hasm
  induction h with
  | @inception u b hu hok =>
    refine ⟨_, .refl, fromInception_strip ?_⟩
    apply checkInception_strip_eq hok₀ hok
    apply hcf.identifier hpre₀ (inception_preimage hu hok)
    exact (digest_of_inception hok₀).2.symm.trans (digest_of_inception hok).2
  | @push c u b _ hu hok ih =>
    obtain ⟨d, hd, hstrip⟩ := ih
    have hok' : checkSuccessor C d u .signed = .ok b := by
      rw [← checkSuccessor_strip, hstrip, checkSuccessor_strip]
      exact hok
    have hserved := (hd.served hasm (.inception hu₀ hok₀)).1
    obtain ⟨b', hb', hdig⟩ := extension_of_successor hasm hcf hzero hroot hserved hu hok'
    refine ⟨d.push C b', Relation.ReflTransGen.tail hd ⟨b', hb', rfl⟩, ?_⟩
    obtain ⟨u', hu', hchecked⟩ := extension_served hasm hb'
    have hpre : b'.preimage = b.preimage := by
      apply hcf.digest (successor_preimage hu' hchecked) (successor_preimage hu hok)
      rw [← digest_of_successor hchecked, ← digest_of_successor hok, hdig]
    rw [ValidatedChain.strip_push, ValidatedChain.strip_push, hstrip,
      checkSuccessor_strip_eq hchecked hok hstrip hpre]

end BuiltFrom

section Returned
variable {C : Crypto} {identifier : Identifier} {units : List Bytes} {i : ℕ} {g : Group}
  {a : Accepted} (hcf : CollisionFree C (preimagesOf units))
include hcf

/-- The walk from the root, run to its end. -/
theorem Rooted.returns (h : Rooted C identifier (Assembly.new C identifier units) i g a) :
    ∃ chains discarded, validateEntry C identifier units = ⟨.valid chains, discarded⟩ ∧
      chains.Pairwise Apart ∧
      discarded.map Discarded.servedIndex =
        (List.range units.length).filter (reported C identifier units chains) ∧
      (∀ l ∈ chains, l.len ≤ units.length) ∧
      ∀ l, l ∈ chains ↔ extensions C (Assembly.new C identifier units) l = [] ∧
        Grows C (Assembly.new C identifier units) (.fromInception C identifier a) l := by
  have hasm : Assembled C identifier units (Assembly.new C identifier units) := assembled_new units
  obtain ⟨discarded, hroots, hacc⟩ := h.readRoots hasm hcf
  have hinv := h.walkInv hasm discarded
  have hrun := branches_explores C (Assembly.new C identifier units)
    (.fromInception C identifier a) ⟨(Assembly.new C identifier units).inception.reverse, discarded⟩
  have hfinal := Accounted.run hasm hrun hinv [] hacc
  have hstart : ∀ j ∈ (Assembly.new C identifier units).inception, j ∈ (branches C
      (Assembly.new C identifier units) (.fromInception C identifier a)
      ⟨(Assembly.new C identifier units).inception.reverse, discarded⟩).2.visited := by
    intro j hj
    exact visited_kept hasm hrun hinv (List.mem_reverse.mpr hj)
  refine ⟨_, _, ?_, leaves_apart hasm hrun hinv, reports_sorted hasm hfinal hstart, ?_, ?_⟩
  · unfold validateEntry
    dsimp only
    rw [hroots]
  · intro l hl
    exact len_le_units hasm (leaves_nodup hasm hrun hinv l hl) (hfinal.met l hl)
  · intro l
    rw [mem_leaves hasm hrun hinv l]
    simp

/-- The chains returned, up to the copies: those the units build and none of them
extends. -/
theorem Rooted.mem_strips (h : Rooted C identifier (Assembly.new C identifier units) i g a)
    (hzero : ∀ signed ∈ preimagesOf units, C.sha256 signed ≠ 0)
    {chains : List ValidatedChain} (hchains : ∀ l, l ∈ chains ↔
      extensions C (Assembly.new C identifier units) l = [] ∧
        Grows C (Assembly.new C identifier units) (.fromInception C identifier a) l)
    (bare : ValidatedChain) :
    bare ∈ chains.map ValidatedChain.strip ↔ ∃ c, BuiltFrom C identifier units c ∧
      c.strip = bare ∧ ∀ u ∈ units, ∀ b, checkSuccessor C c u .signed ≠ .ok b := by
  have hasm : Assembled C identifier units (Assembly.new C identifier units) := assembled_new units
  obtain ⟨u₀, hu₀, hok₀, -, -⟩ := h.copy hasm
  rw [List.mem_map]
  constructor
  · intro hmem
    obtain ⟨l, hl, rfl⟩ := hmem
    obtain ⟨hnone, hgrows⟩ := (hchains l).mp hl
    have hserved := (hgrows.served hasm (.inception hu₀ hok₀)).1
    refine ⟨l, hserved, rfl, ?_⟩
    intro u hu b hb
    obtain ⟨b', hb', -⟩ := extension_of_successor hasm hcf hzero h hserved hu hb
    rw [hnone] at hb'
    cases hb'
  · intro hmem
    obtain ⟨c, hserved, rfl, hmax⟩ := hmem
    obtain ⟨d, hgrows, hstrip⟩ := hserved.grows hasm hcf hzero h
    refine ⟨d, (hchains d).mpr ⟨?_, hgrows⟩, hstrip⟩
    apply List.eq_nil_iff_forall_not_mem.mpr
    intro b hb
    obtain ⟨u, hu, hok⟩ := extension_served hasm hb
    apply hmax u hu b
    rw [← checkSuccessor_strip, ← hstrip, checkSuccessor_strip]
    exact hok

omit hcf in
/-- A digest is reported, by the first unit that carries it, exactly when no chain
holds it. -/
theorem mem_reported {chains : List ValidatedChain} {discarded : List Discarded}
    (h : discarded.map Discarded.servedIndex =
      (List.range units.length).filter (reported C identifier units chains))
    {u : Bytes} (hu : u ∈ units) {d : Digest} (hd : digestOf C identifier u = some d) :
    (∃ r ∈ discarded, units[r.servedIndex]?.bind (digestOf C identifier) = some d) ↔
      ∀ c ∈ chains, d ∉ c.eventDigests := by
  constructor
  · intro hex
    obtain ⟨r, hr, hrd⟩ := hex
    have hmem : r.servedIndex ∈ discarded.map Discarded.servedIndex :=
      List.mem_map.mpr ⟨r, hr, rfl⟩
    rw [h, List.mem_filter] at hmem
    have hrep := hmem.2
    unfold reported at hrep
    obtain ⟨u', hu', hd'⟩ := Option.bind_eq_some_iff.mp hrd
    simp only [hu', Option.map_some, hd', Bool.and_eq_true, List.all_eq_true,
      decide_eq_true_eq] at hrep
    exact hrep.2
  · intro hoff
    have hex : (units.findIdx? (fun u => digestOf C identifier u = some d)).isSome := by
      rw [List.findIdx?_isSome, List.any_eq_true]
      exact ⟨u, hu, by simpa using hd⟩
    obtain ⟨n, hn⟩ := Option.isSome_iff_exists.mp hex
    obtain ⟨hlt, hp, -⟩ := List.findIdx?_eq_some_iff_getElem.mp hn
    rw [decide_eq_true_eq] at hp
    have hmem : n ∈ discarded.map Discarded.servedIndex := by
      rw [h, List.mem_filter, List.mem_range]
      refine ⟨hlt, ?_⟩
      simp only [reported, List.getElem?_eq_getElem hlt, Option.map_some, hp, hn,
        Bool.and_eq_true, List.all_eq_true, decide_eq_true_eq, true_and]
      exact hoff
    obtain ⟨r, hr, rfl⟩ := List.mem_map.mp hmem
    refine ⟨r, hr, ?_⟩
    rw [List.getElem?_eq_getElem hlt]
    exact hp

end Returned

theorem mem_digests_of_strips (chains : List ValidatedChain) (digests : List Digest) :
    digests ∈ chains.map ValidatedChain.eventDigests ↔
      ∃ bare ∈ chains.map ValidatedChain.strip, bare.eventDigests = digests := by
  simp

theorem preimagesOf_perm {units units' : List Bytes} (h : units.Perm units') :
    preimagesOf units' = preimagesOf units := by
  unfold preimagesOf
  simp only [h.mem_iff]

/-- Entry validation accounts for every unit and every branch. A valid entry's
chains start at its inception, no one of them leads another, and no unit served
extends any; each unit off the chains is reported once for its digest, and the
order the units were served in does not change the chains. -/
theorem validateEntry_accounts (C : Crypto) (identifier : Identifier) (units : List Bytes)
    (hcf : CollisionFree C (preimagesOf units))
    (hzero : ∀ signed ∈ preimagesOf units, C.sha256 signed ≠ 0)
    (chains : List ValidatedChain) (discarded : List Discarded)
    (h : validateEntry C identifier units = ⟨.valid chains, discarded⟩) :
    (∃ u ∈ units, ∃ a, checkInception C u (some identifier) .signed = .ok a ∧
      ∀ c ∈ chains, c.inception = a.event ∧ BuiltFrom C identifier units c) ∧
    chains.Pairwise Apart ∧
    (∀ u ∈ units, ∀ d, digestOf C identifier u = some d →
      ((∃ c ∈ chains, d ∈ c.eventDigests) ↔
        ¬ ∃ r ∈ discarded, units[r.servedIndex]?.bind (digestOf C identifier) = some d)) ∧
    discarded.map Discarded.servedIndex =
      (List.range units.length).filter (reported C identifier units chains) ∧
    (∀ c ∈ chains, ∀ u ∈ units, ∃ defect, c.extend C u = .error defect) ∧
    ∀ units', units.Perm units' → ∃ chains' discarded',
      validateEntry C identifier units' = ⟨.valid chains', discarded'⟩ ∧
      ∀ digests, digests ∈ chains'.map ValidatedChain.eventDigests ↔
        digests ∈ chains.map ValidatedChain.eventDigests := by
  have hasm : Assembled C identifier units (Assembly.new C identifier units) := assembled_new units
  obtain ⟨i, g, a, hroot⟩ := rooted_of_valid h
  obtain ⟨chains₁, discarded₁, heq, hapart, hreports, -, hmem⟩ := hroot.returns hcf
  rw [h, EntryValidation.mk.injEq, EntryVerdict.valid.injEq] at heq
  obtain ⟨rfl, rfl⟩ := heq
  obtain ⟨u₀, hu₀, hok₀, -, -⟩ := hroot.copy hasm
  -- Every chain starts at the one root and takes its events from the units.
  have hserved (c : ValidatedChain) (hc : c ∈ chains) :=
    ((hmem c).mp hc).2.served hasm (.inception hu₀ hok₀)
  refine ⟨⟨u₀, hu₀, a, hok₀, ?_⟩, hapart, ?_, hreports, ?_, ?_⟩
  · intro c hc
    exact ⟨(hserved c hc).2, (hserved c hc).1⟩
  · intro u hu d hd
    rw [mem_reported hreports hu hd]
    simp
  · intro c hc u hu
    unfold ValidatedChain.extend
    cases hs : checkSuccessor C c u .signed with
    | error defect => exact ⟨defect, rfl⟩
    | ok b =>
      obtain ⟨b', hb', -⟩ := extension_of_successor hasm hcf hzero hroot (hserved c hc).1 hu hs
      rw [((hmem c).mp hc).1] at hb'
      cases hb'
  · intro units' hperm
    -- The root is found in any order, and with it the same chains but for their copies.
    have hseen := preimagesOf_perm hperm
    have hcf' : CollisionFree C (preimagesOf units') := by
      rw [hseen]
      exact hcf
    obtain ⟨i', g', a', hroot'⟩ := rooted_of_inception (assembled_new units') hcf'
      (hperm.mem_iff.mp hu₀) hok₀
    obtain ⟨chains', discarded', heq', -, -, -, hmem'⟩ := hroot'.returns hcf'
    refine ⟨chains', discarded', heq', ?_⟩
    have hsame (c : ValidatedChain) : BuiltFrom C identifier units' c ↔ BuiltFrom C identifier units c :=
      ⟨BuiltFrom.mono (fun u hu => hperm.mem_iff.mpr hu),
        BuiltFrom.mono (fun u hu => hperm.mem_iff.mp hu)⟩
    have hstrips (bare : ValidatedChain) : bare ∈ chains'.map ValidatedChain.strip ↔
        bare ∈ chains.map ValidatedChain.strip := by
      rw [hroot'.mem_strips hcf' (by rwa [hseen]) hmem', hroot.mem_strips hcf hzero hmem]
      simp only [hsame, hperm.mem_iff]
    intro digests
    rw [mem_digests_of_strips, mem_digests_of_strips]
    simp only [hstrips]

section Sample

/-- Two recoveries of the sample inception, one of them with a second copy that
lacks a signature, and a unit that does not decode. -/
def sampleUnits : List Bytes :=
  [sampleUnit (sampleRecovery 6 7) 3, [0], sampleUnit (sampleRecovery 4 5) 2,
    sampleUnit sampleInception 1, sampleUnit (sampleRecovery 4 5) 3]

def sampleChains : List ValidatedChain :=
  match (validateEntry sampleCrypto sampleIdentifier sampleUnits).verdict with
  | .valid chains => chains
  | _ => []

theorem mem_preimagesOf (units : List Bytes) (signed : Bytes) :
    signed ∈ preimagesOf units ↔ signed ∈ (units.filterMap servedFields).map signedPreimageOf := by
  simp only [preimagesOf, Set.mem_ofPred_eq, List.mem_map, List.mem_filterMap]
  constructor
  · intro h
    obtain ⟨u, hu, fields, hf, rfl⟩ := h
    exact ⟨fields, ⟨u, hu, hf⟩, rfl⟩
  · intro h
    obtain ⟨fields, ⟨u, hu, hf⟩, rfl⟩ := h
    exact ⟨u, hu, fields, hf, rfl⟩

/-- Units whose preimages a hash tells apart make a world free of collisions. -/
theorem world_of_hashes {C : Crypto} {units : List Bytes}
    (h : ∀ x ∈ (units.filterMap servedFields).map signedPreimageOf, C.sha256 x ≠ 0 ∧
      ∀ y ∈ (units.filterMap servedFields).map signedPreimageOf,
        (C.sha256 x = C.sha256 y → x = y) ∧
        (C.sha256 (kelIdSeparator ++ x) = C.sha256 (kelIdSeparator ++ y) → x = y)) :
    CollisionFree C (preimagesOf units) ∧ ∀ x ∈ preimagesOf units, C.sha256 x ≠ 0 := by
  refine ⟨⟨?_, ?_⟩, ?_⟩
  · intro x hx y hy hxy
    rw [mem_preimagesOf] at hx hy
    exact ((h x hx).2 y hy).1 hxy
  · intro x hx y hy hxy
    rw [mem_preimagesOf] at hx hy
    exact ((h x hx).2 y hy).2 hxy
  · intro x hx
    rw [mem_preimagesOf] at hx
    exact (h x hx).1

theorem sampleUnits_world : CollisionFree sampleCrypto (preimagesOf sampleUnits) ∧
    ∀ x ∈ preimagesOf sampleUnits, sampleCrypto.sha256 x ≠ 0 :=
  world_of_hashes (by decide +kernel)

theorem sampleUnits_accounts : sampleChains.length = 2 ∧
    ∀ c ∈ sampleChains, ∀ u ∈ sampleUnits, ∃ defect, c.extend sampleCrypto u = .error defect := by
  obtain ⟨hcf, hzero⟩ := sampleUnits_world
  have h : validateEntry sampleCrypto sampleIdentifier sampleUnits = ⟨.valid sampleChains,
      (validateEntry sampleCrypto sampleIdentifier sampleUnits).discarded⟩ := by
    decide +kernel
  obtain ⟨-, -, -, -, hmax, -⟩ := validateEntry_accounts sampleCrypto sampleIdentifier sampleUnits
    hcf hzero _ _ h
  exact ⟨by decide +kernel, hmax⟩

end Sample

end ScpCore.Kel
