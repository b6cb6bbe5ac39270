import ScpCore.KelRoots

/-! What an entry reports as discarded: the units that joined no group, and the
first unit of each group on no chain, each once and in served order. -/

namespace ScpCore.Kel

/-- Whether the unit at `n` is reported: it is placed nowhere, or it is the first
served with a digest no chain holds. -/
def reported (C : Crypto) (identifier : Identifier) (units : List Bytes)
    (chains : List ValidatedChain) (n : ℕ) : Bool :=
  match units[n]?.map (digestOf C identifier) with
  | none => false
  | some none => true
  | some (some d) => units.findIdx? (fun u => digestOf C identifier u = some d) = some n &&
      chains.all (fun c => d ∉ c.eventDigests)

section Reports
variable {C : Crypto} {identifier : Identifier} {units : List Bytes} {asm : Assembly}
  {chains : List ValidatedChain} {v : Visit} (hasm : Assembled C identifier units asm)
include hasm

/-- A report is of a unit placed nowhere, or of a group on no chain. -/
theorem reported_iff (n : ℕ) : reported C identifier units chains n = true ↔
    (∃ u, units[n]? = some u ∧ digestOf C identifier u = none) ∨
      ∃ (i : ℕ) (g : Group), asm.groups[i]? = some g ∧ g.firstServed = n ∧
        ∀ c ∈ chains, g.digest ∉ c.eventDigests := by
  have hgroup {i : ℕ} {g : Group} (hg : asm.groups[i]? = some g) :=
    (hasm.group g (List.mem_of_getElem? hg)).first
  unfold reported
  cases hu : units[n]? with
  | none =>
    simp only [Option.map_none, Bool.false_eq_true, reduceCtorEq, false_and, exists_false,
      false_or, false_iff]
    intro h
    obtain ⟨i, g, hg, rfl, -⟩ := h
    obtain ⟨u, hu', -⟩ := firstServed_unit hasm (List.mem_of_getElem? hg)
    rw [hu] at hu'
    cases hu'
  | some u =>
    cases hd : digestOf C identifier u with
    | none => simp [hd]
    | some d =>
      simp only [Option.map_some, hd, Bool.and_eq_true, decide_eq_true_eq, List.all_eq_true]
      constructor
      · intro h
        obtain ⟨hfirst, hoff⟩ := h
        obtain ⟨g, hg, hgd⟩ := hasm.covers u (List.mem_of_getElem? hu) d hd
        obtain ⟨i, hi⟩ := List.mem_iff_getElem?.mp hg
        have hindex := hgroup hi
        rw [hgd, hfirst, Option.some.injEq] at hindex
        exact .inr ⟨i, g, hi, hindex.symm, by simpa [hgd] using hoff⟩
      · intro h
        rcases h with ⟨u', hu', hnone⟩ | ⟨i, g, hg, rfl, hoff⟩
        · rw [← Option.some.inj hu', hd] at hnone
          cases hnone
        · obtain ⟨u', hu', hd'⟩ := firstServed_unit hasm (List.mem_of_getElem? hg)
          rw [hu, Option.some.injEq] at hu'
          rw [← hu', hd, Option.some.injEq] at hd'
          rw [hd']
          exact ⟨hgroup hg, by simpa using hoff⟩

theorem mem_unplaced (n : ℕ) : n ∈ asm.unplaced.map Discarded.servedIndex ↔
    ∃ u, units[n]? = some u ∧ digestOf C identifier u = none := by
  rw [hasm.unplaced, List.map_filterMap, List.mem_filterMap]
  constructor
  · intro h
    obtain ⟨⟨u, m⟩, hmem, hreport⟩ := h
    have hu := List.mem_zipIdx_iff_getElem?.mp hmem
    cases hp : placement C identifier u with
    | ok r => simp [unplacedAt, hp] at hreport
    | error defect =>
      simp only [unplacedAt, hp, Option.map_some, Option.some.injEq] at hreport
      have hm : m = n := hreport
      exact ⟨u, hm ▸ hu, digestOf_error hp⟩
  · intro h
    obtain ⟨u, hu, hnone⟩ := h
    refine ⟨(u, n), List.mem_zipIdx_iff_getElem?.mpr hu, ?_⟩
    cases hp : placement C identifier u with
    | ok r =>
      rw [digestOf_ok hp] at hnone
      cases hnone
    | error defect => simp [unplacedAt, hp, Discarded.unplaced]

theorem mem_unreached (n : ℕ) : n ∈ (unreached asm v).map Discarded.servedIndex ↔
    ∃ i p g, (i, p) ∈ asm.named ∧ i ∉ v.visited ∧ asm.groups[i]? = some g ∧
      g.firstServed = n := by
  unfold unreached
  rw [List.map_filterMap, List.mem_filterMap]
  constructor
  · intro h
    obtain ⟨⟨i, p⟩, hn, hreport⟩ := h
    obtain ⟨g, -, hg, -⟩ := hasm.named _ hn
    by_cases hv : i ∈ v.visited
    · simp [hv] at hreport
    · simp only [hv, if_false, hg, Option.map_some, Option.some.injEq] at hreport
      exact ⟨i, p, g, hn, hv, hg, hreport⟩
  · intro h
    obtain ⟨i, p, g, hn, hv, hg, hfirst⟩ := h
    exact ⟨(i, p), hn, by simp [hv, hg, Discarded.unplaced, hfirst]⟩

theorem unplaced_nodup : (asm.unplaced.map Discarded.servedIndex).Nodup := by
  have hzip : units.zipIdx.Pairwise (fun x y => x.2 ≠ y.2) := by
    have h : (units.zipIdx.map Prod.snd).Nodup := by
      rw [List.zipIdx_map_snd]
      exact List.nodup_range'
    exact List.pairwise_map.mp h
  rw [hasm.unplaced, List.map_filterMap]
  refine hzip.filterMap _ ?_
  intro x y hne n hn m hm
  have hindex (z : Bytes × ℕ) (k : ℕ)
      (hk : (unplacedAt C identifier z).map Discarded.servedIndex = some k) : k = z.2 := by
    unfold unplacedAt at hk
    split at hk
    · exact (Option.some.inj hk).symm
    · cases hk
  rw [hindex x n hn, hindex y m hm]
  exact hne

theorem unreached_nodup (v : Visit) : ((unreached asm v).map Discarded.servedIndex).Nodup := by
  have hnamed : asm.named.Pairwise (fun x y => x.1 ≠ y.1) :=
    List.pairwise_map.mp hasm.named_nodup
  unfold unreached
  rw [List.map_filterMap]
  refine hnamed.filterMap _ ?_
  intro x y hne n hn m hm heq
  have hindex (z : ℕ × Digest) (k : ℕ)
      (hk : (if z.1 ∈ v.visited then none else asm.groups[z.1]?.map (fun g =>
        Discarded.unplaced g.firstServed (.predecessorMismatch z.2))).map
          Discarded.servedIndex = some k) :
      ∃ g, asm.groups[z.1]? = some g ∧ g.firstServed = k := by
    split_ifs at hk
    · cases hk
    · cases hg : asm.groups[z.1]? with
      | none => simp [hg] at hk
      | some g => exact ⟨g, rfl, by simpa [hg, Discarded.unplaced] using hk⟩
  obtain ⟨g₁, hg₁, hf₁⟩ := hindex x n hn
  obtain ⟨g₂, hg₂, hf₂⟩ := hindex y m hm
  exact hne (firstServed_inj hasm hg₁ hg₂ (by rw [hf₁, hf₂, heq]))

/-- The reports of a whole walk, before they are sorted. -/
theorem mem_reports (hacc : Accounted asm chains v) (hstart : ∀ i ∈ asm.inception, i ∈ v.visited)
    (n : ℕ) : n ∈ (v.discarded ++ asm.unplaced ++ unreached asm v).map Discarded.servedIndex ↔
      reported C identifier units chains n = true := by
  rw [reported_iff hasm, List.map_append, List.map_append, List.mem_append, List.mem_append,
    hacc.mem, mem_unplaced hasm, mem_unreached hasm]
  constructor
  · intro h
    rcases h with (⟨i, -, g, hg, hfirst, hoff⟩ | h) | ⟨i, p, g, -, hv, hg, hfirst⟩
    · exact .inr ⟨i, g, hg, hfirst, hoff⟩
    · exact .inl h
    · -- A group never offered has a digest no chain met.
      refine .inr ⟨i, g, hg, hfirst, ?_⟩
      intro c hc hd
      exact not_met hasm hv hg (hacc.met c hc _ hd)
  · intro h
    rcases h with h | ⟨i, g, hg, hfirst, hoff⟩
    · exact .inl (.inr h)
    · by_cases hv : i ∈ v.visited
      · exact .inl (.inl ⟨i, hv, g, hg, hfirst, hoff⟩)
      · right
        obtain ⟨hlt, -⟩ := List.getElem?_eq_some_iff.mp hg
        rcases hasm.lt_length.mp hlt with hin | ⟨p, hn⟩
        · exact absurd (hstart i hin) hv
        · exact ⟨i, p, g, hn, hv, hg, hfirst⟩

theorem reports_nodup (hacc : Accounted asm chains v) :
    ((v.discarded ++ asm.unplaced ++ unreached asm v).map Discarded.servedIndex).Nodup := by
  have hgroup {n : ℕ} {i : ℕ} {g : Group} (hg : asm.groups[i]? = some g)
      (hfirst : g.firstServed = n) (hn : n ∈ asm.unplaced.map Discarded.servedIndex) : False := by
    obtain ⟨u, hu, hnone⟩ := (mem_unplaced hasm n).mp hn
    obtain ⟨u', hu', hd⟩ := firstServed_unit hasm (List.mem_of_getElem? hg)
    rw [hfirst, hu, Option.some.injEq] at hu'
    rw [← hu', hnone] at hd
    cases hd
  rw [List.map_append, List.map_append, List.nodup_append, List.nodup_append]
  refine ⟨⟨hacc.nodup, unplaced_nodup hasm, ?_⟩, unreached_nodup hasm v, ?_⟩
  · intro n hn m hm heq
    obtain ⟨i, -, g, hg, hfirst, -⟩ := (hacc.mem n).mp hn
    exact hgroup hg (hfirst.trans heq) hm
  · intro n hn m hm heq
    obtain ⟨i, p, g, -, hv, hg, hfirst⟩ := (mem_unreached hasm m).mp hm
    rcases List.mem_append.mp hn with hn | hn
    · obtain ⟨j, hj, g', hg', hfirst', -⟩ := (hacc.mem n).mp hn
      have hij := firstServed_inj hasm hg hg' (by rw [hfirst, hfirst', heq])
      exact hv (hij ▸ hj)
    · exact hgroup hg (hfirst.trans heq.symm) hn

/-- Sorted by served index, the reports are exactly the units to report. -/
theorem reports_sorted (hacc : Accounted asm chains v)
    (hstart : ∀ i ∈ asm.inception, i ∈ v.visited) :
    ((v.discarded ++ asm.unplaced ++ unreached asm v).insertionSort
        (fun a b => a.servedIndex ≤ b.servedIndex)).map Discarded.servedIndex =
      (List.range units.length).filter (reported C identifier units chains) := by
  have hperm := (List.perm_insertionSort (fun a b : Discarded => a.servedIndex ≤ b.servedIndex)
    (v.discarded ++ asm.unplaced ++ unreached asm v)).map Discarded.servedIndex
  have hnodup := hperm.nodup_iff.mpr (reports_nodup hasm hacc)
  have hsorted : (((v.discarded ++ asm.unplaced ++ unreached asm v).insertionSort
      (fun a b => a.servedIndex ≤ b.servedIndex)).map Discarded.servedIndex).Pairwise (· ≤ ·) := by
    rw [List.pairwise_map]
    have htotal : Std.Total (fun a b : Discarded => a.servedIndex ≤ b.servedIndex) :=
      ⟨fun a b => Nat.le_total a.servedIndex b.servedIndex⟩
    have htrans : IsTrans Discarded (fun a b => a.servedIndex ≤ b.servedIndex) :=
      ⟨fun a b c hab hbc => Nat.le_trans hab hbc⟩
    exact List.pairwise_insertionSort _ _
  have hstrict := List.Pairwise.and hsorted hnodup
  apply List.Pairwise.eq_of_mem_iff (r := (· < ·))
  · exact hstrict.imp (fun h => lt_of_le_of_ne h.1 h.2)
  · exact List.pairwise_lt_range.filter _
  · intro n
    rw [hperm.mem_iff, mem_reports hasm hacc hstart, List.mem_filter, List.mem_range]
    constructor
    · intro h
      refine ⟨?_, h⟩
      unfold reported at h
      by_contra hlt
      simp [List.getElem?_eq_none (Nat.le_of_not_lt hlt)] at h
    · exact fun h => h.2

end Reports

end ScpCore.Kel
