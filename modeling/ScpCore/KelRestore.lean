import ScpCore.KelPersisted
import ScpCore.KelAccepted
import ScpCore.KelClassified

/-! A persisted retention set restored. Its chains come back in the copies that were
persisted; they enter again where these fit the byte bound, and the set is refused where
a suffix wins over an accepted basis. -/

namespace ScpCore.Kel

inductive AdoptedBasis
  | accepted (head : Digest)
  | contestedPrefix (head : Digest)
  deriving DecidableEq

def AdoptedBasis.of : RetentionBasis → AdoptedBasis
  | .accepted chain => .accepted chain.headDigest
  | .contestedPrefix chain => .contestedPrefix chain.headDigest

inductive RestoreError
  | discarded (units : List Discarded)
  | inceptionInvalid (defect : InceptionDefect)
  | noInception
  | missingHead (head : Digest)
  | duplicateObserved (observed : ℕ)
  | observedExhausted
  | inadmissible (head : Digest) (admission : Admission)
  | unreferencedUnits (persisted referenced : ℕ)
  | retention (error : RetentionError)
  | basisDisagrees (adopted : AdoptedBasis) (kind : BasisKind) (head : Digest)
  | acceptedDisplaced (accepted : Digest) (by_ : Digest)
  | tiePrefixWithoutAccepted (head : Digest)
  | tiePrefixOffHeldChains (head : Digest)
  | resolve (error : ResolveError)
  deriving DecidableEq

namespace Restore

/-- The kind and the head of the basis are those the verdict names. -/
def agrees : AdoptedBasis → PersistedBasis → Bool
  | .accepted head, saved => saved.kind = .accepted && head = saved.head
  | .contestedPrefix head, saved => saved.kind = .contestedPrefix && head = saved.head

/-- Every valid chain the units hold. -/
def rebuild (C : Crypto) (identifier : Identifier) (units : List Bytes) :
    Except RestoreError (List ValidatedChain) :=
  if units = [] then .ok []
  else
    let validation := validateEntry C identifier units
    match validation.verdict with
    | .inceptionInvalid defect => .error (.inceptionInvalid defect)
    | .noInception => .error .noInception
    | .valid chains =>
      if validation.discarded = [] then .ok chains else .error (.discarded validation.discarded)

/-- The prefix through a head of the first chain that holds it. -/
def find (chains : List ValidatedChain) (head : Digest) : Except RestoreError ValidatedChain :=
  okOr (chains.findSome? (fun chain =>
    (chain.events.find? (fun event => event.digest = head)).bind
      (fun event => chain.prefixThrough event.sequence))) (.missingHead head)

def basis (chains : List ValidatedChain) (saved : PersistedBasis) :
    Except RestoreError (RetentionBasis × Option ValidatedChain) := do
  let chain ← find chains saved.head
  match saved.kind, saved.tiePrefix with
  | .accepted, none => pure (.accepted chain, none)
  | .accepted, some head =>
    let tie ← find chains head
    pure (.accepted chain, some tie)
  | .contestedPrefix, none => pure (.contestedPrefix chain, none)
  | .contestedPrefix, some head => throw (.tiePrefixWithoutAccepted head)

/-- The moments, each once. -/
def moments : List ℕ → List PersistedSuffix → Except RestoreError (List ℕ)
  | seen, [] => .ok seen
  | seen, suffix :: rest =>
    if suffix.observed ∈ seen then .error (.duplicateObserved suffix.observed)
    else moments (suffix.observed :: seen) rest

def nextObserved (moments : List ℕ) : Except RestoreError ℕ :=
  okOr (moments.max?.bind (fun last => if last+1 ≤ u64Max then some (last+1) else none))
    .observedExhausted

/-- Each suffix placed again, with its own moment. -/
def readmit (chains : List ValidatedChain) :
    RetentionSet → List PersistedSuffix → Except RestoreError RetentionSet
  | set, [] => .ok set
  | set, suffix :: rest => do
    let chain ← find chains suffix.head
    let (admission, placed) ← (set.place chain (some suffix.observed)).mapError .retention
    match admission with
    | .retained _ [] => readmit chains placed rest
    | admission => throw (.inadmissible suffix.head admission)

def checkTiePrefix (set : RetentionSet) : Except RestoreError Unit :=
  match set.tiePrefix with
  | none => .ok ()
  | some tie => do
    let settled ← (set.settled tie).mapError (fun error => .retention (.unrelated error))
    require (settled.map ValidatedChain.headDigest = some tie.headDigest)
      (.tiePrefixOffHeldChains tie.headDigest)

def checkUnits (set : RetentionSet) (persisted : ℕ) : Except RestoreError Unit :=
  require (set.persisted.units.length = persisted)
    (.unreferencedUnits persisted set.persisted.units.length)

def checkAccepted (set : RetentionSet) : Except RestoreError Unit := do
  let winner ← set.winningSuffix.mapError .resolve
  match set.basis, winner with
  | .accepted accepted, some winner => throw (.acceptedDisplaced accepted.headDigest winner)
  | .accepted _, none | .contestedPrefix _, _ => pure ()

end Restore

namespace RetentionSet

/-- `restore`: the saved set against the basis that the verifier's verdict names. -/
def restore (C : Crypto) (identifier : Identifier) (saved : PersistedRetention)
    (adopted : AdoptedBasis) : Except RestoreError RetentionSet := do
  require (Restore.agrees adopted saved.basis)
    (.basisDisagrees adopted saved.basis.kind saved.basis.head)
  let chains ← Restore.rebuild C identifier saved.units
  let (basis, tiePrefix) ← Restore.basis chains saved.basis
  let moments ← Restore.moments [saved.basis.observed] saved.suffixes
  let next ← Restore.nextObserved moments
  let set ← Restore.readmit chains
    ⟨basis, saved.basis.observed, tiePrefix, [], next, .registered⟩
    (saved.suffixes.insertionSort (fun x y => x.observed ≤ y.observed))
  Restore.checkTiePrefix set
  Restore.checkUnits set saved.units.length
  Restore.checkAccepted set
  pure set

/-- What is persisted of a suffix and what it ranks as. -/
def summary (x : RetainedSuffix) : Digest × ForkRank × ℕ × ℕ :=
  (x.head, x.rank, x.forkPosition, x.observed)

/-- The restored set is the one that was persisted, up to copies and order. -/
structure RestoredAs (s s' : RetentionSet) : Prop where
  kind : s'.basis.kind = s.basis.kind
  head : s'.basis.chain.headDigest = s.basis.chain.headDigest
  observed : s'.basisObserved = s.basisObserved
  tiePrefix : s'.tiePrefix.map ValidatedChain.headDigest = s.tiePrefix.map ValidatedChain.headDigest
  suffixes : (s'.suffixes.map summary).Perm (s.suffixes.map summary)

end RetentionSet

section Readmit
variable {b : Book} {size : Digest → ℕ} {s s' : RetentionSet} {candidate : ValidatedChain}
  {chains : List ValidatedChain} {xs : List RetainedSuffix} {copy : ValidatedChain → ValidatedChain}

/-- What is saved of a suffix. -/
def RetainedSuffix.saved (x : RetainedSuffix) : PersistedSuffix := ⟨x.head, x.observed⟩

/-- A suffix by its moment and digests. -/
def RetainedSuffix.stamp (x : RetainedSuffix) : ℕ × List Digest :=
  (x.observed, x.chain.eventDigests)

/-- A candidate that is retained without an eviction stands last, under its moment. -/
theorem Places.retained_alone {moment : ℕ} {admission : Admission} {rank : ForkRank}
    (h : Places b s candidate (some moment) admission s') (hadmission : admission = .retained rank []) :
    s'.suffixes.map RetainedSuffix.stamp =
      s.suffixes.map RetainedSuffix.stamp ++ [(moment, candidate.eventDigests)] := by
  cases h with
  | held => cases hadmission
  | refused => cases hadmission
  | @entered rank fork extended evict next h =>
    have hmem {i : ℕ} {x : RetainedSuffix} (hx : s.suffixes[i]? = some x) :
        (x, i) ∈ s.suffixes.zipIdx := List.mem_zipIdx_iff_getElem?.mpr hx
    unfold RetentionSet.admissionFor at hadmission
    dsimp only at hadmission
    split at hadmission
    · cases hadmission
    · rename_i hreplaced
      rw [Admission.retained.injEq, List.map_eq_nil_iff, List.filter_eq_nil_iff] at hadmission
      rw [List.getLast?_eq_none_iff, List.map_eq_nil_iff, List.filter_eq_nil_iff] at hreplaced
      have hevict : evict = [] := by
        rw [List.eq_nil_iff_forall_not_mem]
        intro i hi
        have hx := List.getElem?_eq_getElem (h.evict_lt i hi).1
        exact hadmission.2 _ (hmem hx) (by simpa using hi)
      have hextended : extended = none := by
        rcases h.extends_ with ⟨hnone, -⟩ | ⟨i, x, hx, hext, -⟩
        · exact hnone
        · exact absurd (by simp [hevict, hext]) (hreplaced _ (hmem hx))
      have hstaying : s.staying evict extended = s.suffixes := by
        simp [RetentionSet.staying, hevict, hextended]
      rw [hstaying, List.map_append, List.map_singleton, hextended]
      simp [RetainedSuffix.stamp, RetainedSuffix.observed, RetentionSet.slotFor]

open Restore in
/-- Readmission is placement of the same chains, and each of them stands under its moment. -/
theorem readmit_placeAll (hfind : ∀ x ∈ xs, find chains x.head = .ok (copy x.chain))
    (hs : s.OnBook b) (hbook : ∀ x ∈ xs, OnBook b (copy x.chain))
    (h : readmit chains s (xs.map RetainedSuffix.saved) = .ok s') (report : Rerank) :
    (∃ report', RetentionSet.placeAll s report
      (xs.map (fun x => (some x.observed, copy x.chain))) = .ok (report', s')) ∧
    s'.suffixes.map RetainedSuffix.stamp = s.suffixes.map RetainedSuffix.stamp ++
      xs.map (fun x => (x.observed, (copy x.chain).eventDigests)) := by
  induction xs generalizing s report with
  | nil =>
    rw [List.map_nil, readmit, Except.ok.injEq] at h
    subst h
    exact ⟨⟨report, rfl⟩, by simp⟩
  | cons x xs ih =>
    simp only [List.map_cons, readmit, bind_ok_iff, mapError_ok_iff, Prod.exists] at h
    obtain ⟨chain, hchain, admission, placed, hplace, h⟩ := h
    have hx := hfind x List.mem_cons_self
    rw [show x.saved.head = x.head from rfl, hx, Except.ok.injEq] at hchain
    subst hchain
    have hxb := hbook x List.mem_cons_self
    have hp := place_cases hs hxb hplace
    split at h
    · rename_i rank
      obtain ⟨⟨report', hall⟩, hstamps⟩ := ih
        (fun y hy => hfind y (List.mem_cons_of_mem _ hy)) (hp.onBook hs hxb)
        (fun y hy => hbook y (List.mem_cons_of_mem _ hy)) h
        (report.count (copy x.chain).headDigest (.retained rank []))
      refine ⟨⟨report', ?_⟩, ?_⟩
      · rw [List.map_cons, RetentionSet.placeAll, bind_ok_iff]
        exact ⟨_, hplace, hall⟩
      · rw [hstamps, hp.retained_alone rfl, List.map_cons, List.append_assoc]
        rfl
    · cases h

open Restore in
/-- Chains that fit are readmitted. -/
theorem readmit_of_refit (hfind : ∀ x ∈ xs, find chains x.head = .ok (copy x.chain))
    (hoff : ∀ x ∈ xs, ¬ (copy x.chain).eventDigests <+: s.basis.chain.eventDigests)
    (h : Refit b size s (xs.map (fun x => (x.observed, copy x.chain)))) :
    ∃ s', readmit chains s (xs.map RetainedSuffix.saved) = .ok s' := by
  induction xs generalizing s with
  | nil => exact ⟨s, rfl⟩
  | cons x xs ih =>
    obtain ⟨rank, y, hplace, -, -, hrest⟩ := h.place_off (hoff x List.mem_cons_self)
    obtain ⟨s', hs'⟩ := ih (s := { s with suffixes := s.suffixes ++ [y] })
      (fun y hy => hfind y (List.mem_cons_of_mem _ hy))
      (fun y hy => hoff y (List.mem_cons_of_mem _ hy)) hrest
    refine ⟨s', ?_⟩
    simp only [List.map_cons, readmit, bind_ok_iff, mapError_ok_iff, Prod.exists]
    exact ⟨_, hfind x List.mem_cons_self, _, _, hplace, hs'⟩

end Readmit

theorem winningSuffix_ok {b : Book} {s : RetentionSet} (hs : s.OnBook b) :
    ∃ winner, s.winningSuffix = .ok winner := by
  obtain ⟨r, hr, -⟩ := Book.resolveSet_ok hs.chains
  unfold RetentionSet.winningSuffix
  rw [hr]
  cases r with
  | winner head => exact ⟨_, rfl⟩
  | tie tieClass heads sharedPrefixHead forkPosition => exact ⟨_, rfl⟩
  | empty => exact ⟨_, rfl⟩

/-- No suffix wins: the winner, where there is one, holds the basis. -/
theorem winningSuffix_none_iff {b : Book} {s : RetentionSet} (hs : s.OnBook b) :
    s.winningSuffix = .ok none ↔ ∀ head, resolveSet s.chains = .ok (.winner head) →
      ∀ c ∈ s.chains, c.headDigest = head → s.basis.chain.headDigest ∈ c.eventDigests := by
  obtain ⟨r, hr, -⟩ := Book.resolveSet_ok hs.chains
  unfold RetentionSet.winningSuffix
  rw [hr]
  cases r with
  | tie tieClass heads sharedPrefixHead forkPosition =>
    simp [bind, Except.bind, pure, Except.pure]
  | empty => simp [bind, Except.bind, pure, Except.pure]
  | winner head =>
    simp only [bind, Except.bind, pure, Except.pure, Except.ok.injEq, Option.map_eq_none_iff,
      SetResolution.winner.injEq, forall_eq']
    have hon (c : ValidatedChain) : c.events.any (fun event => event.digest =
        s.basis.chain.headDigest) = true ↔ s.basis.chain.headDigest ∈ c.eventDigests := by
      simp [ValidatedChain.eventDigests]
    cases hfind : s.chains.find? (fun chain => chain.headDigest = head) with
    | none =>
      rw [List.find?_eq_none] at hfind
      simp only [Option.filter_none, true_iff]
      intro c hc hhead
      exact absurd (by simpa using hhead) (hfind c hc)
    | some winner =>
      have hmem := List.mem_of_find?_eq_some hfind
      have hhead : winner.headDigest = head := by simpa using List.find?_some hfind
      have hwinner : Option.filter (fun winner => !winner.events.any (fun event => event.digest =
          s.basis.chain.headDigest)) (some winner) = none ↔
          s.basis.chain.headDigest ∈ winner.eventDigests := by
        rw [← hon winner, Option.filter_eq_none_iff]
        simp
      rw [hwinner]
      constructor
      · -- A chain with the winner's head is the winner.
        intro hbasis c hc hc'
        rwa [(hs.chains c hc).eq_of_head (hs.chains winner hmem) (hc'.trans hhead.symm)]
      · intro hall
        exact hall winner hmem hhead

/-- What readmission makes of a persisted set. -/
structure Readmitted (b : Book) (s s' : RetentionSet) : Prop where
  inv : s'.Inv b
  basis : s'.basis = s.basis.mapChain s.persistedCopy
  observed : s'.basisObserved = s.basisObserved
  tiePrefix : s'.tiePrefix = s.tiePrefix.map s.persistedCopy
  bounds : s'.bounds = .registered
  stamps : s'.suffixes.map RetainedSuffix.stamp = s.ordered.map RetainedSuffix.stamp

namespace Readmitted
variable {b : Book} {s s' : RetentionSet} (h : Readmitted b s s')
include h

theorem kind : s'.basis.kind = s.basis.kind := by rw [h.basis, mapChain_kind]

theorem basis_digests : s'.basis.chain.eventDigests = s.basis.chain.eventDigests := by
  rw [h.basis, mapChain_chain, persistedCopy_eventDigests]

theorem basis_head : s'.basis.chain.headDigest = s.basis.chain.headDigest :=
  ValidatedChain.headDigest_eq_of_digests h.basis_digests

/-- The rank and the fork position are those the digests give. -/
theorem placement (x : List Digest) :
    b.placement s'.basis s'.tiePrefix x = b.placement s.basis s.tiePrefix x := by
  unfold Book.placement
  rw [h.kind, h.basis_digests, h.basis_head, h.tiePrefix]
  cases s.tiePrefix with
  | none => rfl
  | some tie => simp only [Option.map_some, Option.elim_some, persistedCopy_eventDigests]

theorem summaries (hinv : s.Inv b) :
    s'.suffixes.map RetentionSet.summary = s.ordered.map RetentionSet.summary := by
  apply List.ext_getElem?
  intro i
  have hi := congrArg (·[i]?) h.stamps
  simp only [List.getElem?_map] at hi ⊢
  cases hy : s'.suffixes[i]? with
  | none =>
    rw [hy, Option.map_none, eq_comm, Option.map_eq_none_iff] at hi
    rw [hi]
  | some y =>
    rw [hy, Option.map_some, eq_comm, Option.map_eq_some_iff] at hi
    obtain ⟨x, hx, hstamp⟩ := hi
    obtain ⟨hobserved, hdigests⟩ := Prod.mk.inj hstamp
    have hxs := mem_ordered.mp (List.mem_of_getElem? hx)
    have hys := List.mem_of_getElem? hy
    have hrank := hinv.ranks x hxs
    rw [rankPlacement_eq hinv.onBook (hinv.onBook.suffixes x hxs), hdigests, ← h.placement,
      ← rankPlacement_eq h.inv.onBook (h.inv.onBook.suffixes y hys), h.inv.ranks y hys,
      Except.ok.injEq, Option.some.injEq, Prod.mk.injEq] at hrank
    have hhead : y.head = x.head := ValidatedChain.headDigest_eq_of_digests hdigests.symm
    rw [hx, Option.map_some, Option.map_some, RetentionSet.summary, RetentionSet.summary, hhead,
      hrank.1, hrank.2, hobserved]

theorem restoredAs (hinv : s.Inv b) : s.RestoredAs s' where
  kind := h.kind
  head := h.basis_head
  observed := h.observed
  tiePrefix := by
    rw [h.tiePrefix, Option.map_map]
    exact Option.map_congr (fun c _ => persistedCopy_headDigest c)
  suffixes := by
    rw [h.summaries hinv]
    exact (List.perm_insertionSort _ _).map _

/-- The chains that are held again, by their digests. -/
theorem mem_digests (x : List Digest) :
    (∃ c ∈ s'.chains, c.eventDigests = x) ↔ ∃ c ∈ s.chains, c.eventDigests = x := by
  have hsuffixes : (∃ y ∈ s'.suffixes, y.chain.eventDigests = x) ↔
      ∃ y ∈ s.suffixes, y.chain.eventDigests = x := by
    have hmem : x ∈ (s'.suffixes.map RetainedSuffix.stamp).map Prod.snd ↔
        x ∈ (s.ordered.map RetainedSuffix.stamp).map Prod.snd := by rw [h.stamps]
    simpa [RetainedSuffix.stamp, mem_ordered] using hmem
  simp only [RetentionSet.chains, List.mem_cons, List.mem_map, exists_eq_or_imp, h.basis_digests]
  constructor
  · rintro (hx | ⟨_, ⟨y, hy, rfl⟩, hx⟩)
    · exact .inl hx
    · obtain ⟨y, hy, hx⟩ := hsuffixes.mp ⟨y, hy, hx⟩
      exact .inr ⟨_, ⟨y, hy, rfl⟩, hx⟩
  · rintro (hx | ⟨_, ⟨y, hy, rfl⟩, hx⟩)
    · exact .inl hx
    · obtain ⟨y, hy, hx⟩ := hsuffixes.mpr ⟨y, hy, hx⟩
      exact .inr ⟨_, ⟨y, hy, rfl⟩, hx⟩

/-- The tie prefix lies on a chain that is held again. -/
theorem checkTiePrefix (hcarried : s.Carried) : Restore.checkTiePrefix s' = .ok () := by
  unfold Restore.checkTiePrefix
  cases htie : s'.tiePrefix with
  | none => rfl
  | some tie =>
    have hk := h.inv.kind (by rw [htie]; rfl)
    have htb := h.inv.onBook.tiePrefix tie htie
    have hcarry : ∃ c ∈ s'.chains, tie.eventDigests <+: c.eventDigests := by
      rw [h.tiePrefix, Option.map_eq_some_iff] at htie
      obtain ⟨p, hp, rfl⟩ := htie
      obtain ⟨c, hc, hpre⟩ := hcarried p hp
      obtain ⟨d, hd, hdc⟩ := (h.mem_digests c.eventDigests).mpr ⟨c, hc, rfl⟩
      refine ⟨d, hd, ?_⟩
      rwa [persistedCopy_eventDigests, hdc]
    have hsettled : s'.settled tie = .ok (some tie) := by
      obtain ⟨carried, hmax, -, hle, -, hall⟩ := carried_spec h.inv.onBook htb
      obtain ⟨c, hc, hpre⟩ := hcarry
      have hfull : carried = tie.len := by
        have hshared := hall c hc
        rw [sharedLen_comm, (sharedLen_eq_length_iff _ _).mpr hpre, tie.length_eventDigests] at hshared
        omega
      unfold RetentionSet.settled
      cases hb : s'.basis with
      | contestedPrefix contested =>
        rw [hb] at hk
        cases hk
      | accepted accepted =>
        dsimp only
        rw [hmax, if_pos hfull]
        rfl
    simp [hsettled, Except.mapError, bind, Except.bind, require]

/-- As many units are referenced as were persisted: one for each digest. -/
theorem checkUnits : Restore.checkUnits s' s.persisted.units.length = .ok () := by
  have hmem (s : RetentionSet) (digest : Digest) :
      digest ∈ ((s.persistedChains.flatMap ValidatedChain.digestUnits).map Prod.fst).toFinset ↔
        (∃ c ∈ s.chains, digest ∈ c.eventDigests) ∨ ∃ p ∈ s.tiePrefix, digest ∈ p.eventDigests := by
    have hunits (c : ValidatedChain) : c.digestUnits.map Prod.fst = c.eventDigests := by
      simp [ValidatedChain.digestUnits, ValidatedChain.eventDigests, Function.comp_def]
    rw [List.mem_toFinset, List.map_flatMap, List.mem_flatMap]
    simp only [hunits, mem_persistedChains, or_and_right, exists_or]
  have hsame : ((s'.persistedChains.flatMap ValidatedChain.digestUnits).map Prod.fst).toFinset =
      ((s.persistedChains.flatMap ValidatedChain.digestUnits).map Prod.fst).toFinset := by
    ext digest
    rw [hmem, hmem, h.tiePrefix]
    have hchains : (∃ c ∈ s'.chains, digest ∈ c.eventDigests) ↔
        ∃ c ∈ s.chains, digest ∈ c.eventDigests := by
      constructor
      · rintro ⟨c, hc, hd⟩
        obtain ⟨c', hc', he⟩ := (h.mem_digests _).mp ⟨c, hc, rfl⟩
        exact ⟨c', hc', he ▸ hd⟩
      · rintro ⟨c, hc, hd⟩
        obtain ⟨c', hc', he⟩ := (h.mem_digests _).mpr ⟨c, hc, rfl⟩
        exact ⟨c', hc', he ▸ hd⟩
    rw [hchains]
    simp
  have hlength : s'.persisted.units.length = s.persisted.units.length := by
    change (firstUnits _ _).length = (firstUnits _ _).length
    rw [length_firstUnits, length_firstUnits, hsame]
  simp [Restore.checkUnits, require, hlength]

theorem branches : b.branches s'.chains = b.branches s.chains := by
  have hbranch (chains : List ValidatedChain) (x : Branch b.label) :
      x ∈ b.branches chains ↔ ∃ c ∈ chains, c.eventDigests = x.elements := by
    constructor
    · intro ⟨c, hc, he⟩
      exact ⟨c, hc, he ▸ rfl⟩
    · intro ⟨c, hc, he⟩
      exact ⟨c, hc, congrArg Branch.mk he⟩
  ext x
  rw [hbranch, hbranch, h.mem_digests]

/-- A suffix wins over the set that comes back where one won over the set persisted. -/
theorem winningSuffix_iff (hs : s.OnBook b) :
    s'.winningSuffix = .ok none ↔ s.winningSuffix = .ok none := by
  have hresolve : resolveSet s'.chains = resolveSet s.chains := by
    apply Book.resolveSet_congr h.inv.onBook.chains hs.chains
    rw [h.branches]
    exact SameTop.refl _
  rw [winningSuffix_none_iff h.inv.onBook, winningSuffix_none_iff hs, hresolve, h.basis_head]
  constructor
  · intro hall head hwin c hc hhead
    obtain ⟨d, hd, he⟩ := (h.mem_digests _).mpr ⟨c, hc, rfl⟩
    rw [← he]
    exact hall head hwin d hd ((ValidatedChain.headDigest_eq_of_digests he).trans hhead)
  · intro hall head hwin c hc hhead
    obtain ⟨d, hd, he⟩ := (h.mem_digests _).mp ⟨c, hc, rfl⟩
    rw [← he]
    exact hall head hwin d hd ((ValidatedChain.headDigest_eq_of_digests he).trans hhead)

theorem checkAccepted_iff (hs : s.OnBook b) : Restore.checkAccepted s' = .ok () ↔
    (s.basis.kind = .accepted → s.winningSuffix = .ok none) := by
  rw [← h.kind, ← h.winningSuffix_iff hs]
  obtain ⟨winner, hwin⟩ := winningSuffix_ok h.inv.onBook
  unfold Restore.checkAccepted
  rw [hwin]
  cases hb : s'.basis with
  | contestedPrefix chain => simp [RetentionBasis.kind, Except.mapError, bind, Except.bind, pure,
      Except.pure]
  | accepted accepted =>
    cases winner with
    | none => simp [RetentionBasis.kind, Except.mapError, bind, Except.bind, pure, Except.pure]
    | some head => simp [RetentionBasis.kind, Except.mapError, bind, Except.bind, throw,
        throwThe, MonadExceptOf.throw]

end Readmitted

section Steps
variable {C : Crypto} {seen : Set Bytes} {identifier : Identifier} {b : Book} {s s' : RetentionSet}
  {chains : List ValidatedChain}

/-- The set before its suffixes are readmitted. -/
def RetentionSet.emptied (s : RetentionSet) (next : ℕ) : RetentionSet :=
  ⟨s.basis.mapChain s.persistedCopy, s.basisObserved, s.tiePrefix.map s.persistedCopy, [], next,
    .registered⟩

theorem restoreMoments_ok (seen : List ℕ) (xs : List PersistedSuffix)
    (h : (seen ++ xs.map PersistedSuffix.observed).Nodup) :
    ∃ ms, Restore.moments seen xs = .ok ms ∧ ∀ m, m ∈ ms ↔ m ∈ seen ++ xs.map PersistedSuffix.observed := by
  induction xs generalizing seen with
  | nil => exact ⟨seen, rfl, by simp⟩
  | cons x xs ih =>
    have hnew : x.observed ∉ seen := by
      intro hmem
      have hdisjoint := (List.nodup_append.mp h).2.2
      exact hdisjoint _ hmem x.observed (by simp) rfl
    have hrest : ((x.observed :: seen) ++ xs.map PersistedSuffix.observed).Nodup := by
      rw [List.map_cons] at h
      exact (List.perm_middle.nodup_iff).mp h
    obtain ⟨ms, hms, hmem⟩ := ih _ hrest
    refine ⟨ms, ?_, ?_⟩
    · rw [Restore.moments, if_neg hnew]
      exact hms
    · intro m
      rw [hmem, List.map_cons]
      exact (List.perm_middle.mem_iff).symm

theorem restoreNext_ok {ms : List ℕ} (hne : ms ≠ []) (h : ∀ m ∈ ms, m < u64Max) :
    ∃ next, Restore.nextObserved ms = .ok next ∧ next ≤ u64Max ∧ ∀ m ∈ ms, m < next := by
  obtain ⟨last, hlast⟩ : ∃ last, ms.max? = some last := by
    rw [← Option.isSome_iff_exists, List.isSome_max?_iff]
    exact hne
  obtain ⟨hmem, hle⟩ := List.max?_eq_some_iff.mp hlast
  have hroom := h last hmem
  refine ⟨last+1, ?_, hroom, fun m hm => Nat.lt_succ_of_le (hle m hm)⟩
  simp [Restore.nextObserved, hlast, okOr, hroom]

theorem restoreBasis_ok (hinv : s.Inv b)
    (hfind : ∀ c ∈ s.persistedChains, Restore.find chains c.headDigest = .ok (s.persistedCopy c)) :
    Restore.basis chains s.persisted.basis =
      .ok (s.basis.mapChain s.persistedCopy, s.tiePrefix.map s.persistedCopy) := by
  have hbasis := hfind s.basis.chain (by simp [RetentionSet.persistedChains])
  have hchain : Restore.find chains s.persisted.basis.head = .ok (s.persistedCopy s.basis.chain) :=
    hbasis
  unfold Restore.basis
  rw [hchain]
  cases hb : s.basis with
  | accepted accepted =>
    cases htie : s.tiePrefix with
    | none => simp [RetentionSet.persisted, RetentionBasis.kind, hb, htie, bind, Except.bind, pure,
        Except.pure, RetentionBasis.mapChain, RetentionBasis.chain]
    | some tie =>
      have hfound := hfind tie (by simp [RetentionSet.persistedChains, htie])
      simp [RetentionSet.persisted, RetentionBasis.kind, hb, htie, hfound, bind, Except.bind, pure,
        Except.pure, RetentionBasis.mapChain, RetentionBasis.chain]
  | contestedPrefix contested =>
    cases htie : s.tiePrefix with
    | none => simp [RetentionSet.persisted, RetentionBasis.kind, hb, htie, bind, Except.bind, pure,
        Except.pure, RetentionBasis.mapChain, RetentionBasis.chain]
    | some tie =>
      have hk := hinv.kind (by rw [htie]; rfl)
      rw [hb] at hk
      cases hk

theorem agrees_of (s : RetentionSet) : Restore.agrees (.of s.basis) s.persisted.basis = true := by
  cases hb : s.basis <;> simp [AdoptedBasis.of, Restore.agrees, RetentionSet.persisted, hb,
    RetentionBasis.kind, RetentionBasis.chain]

/-- The suffixes are saved in the order in which they are read again. -/
theorem ordered_saved_sorted (s : RetentionSet) :
    (s.ordered.map RetainedSuffix.saved).insertionSort (fun x y => x.observed ≤ y.observed) =
      s.ordered.map RetainedSuffix.saved := by
  have htotal : Std.Total (fun x y : RetainedSuffix => x.observed ≤ y.observed) :=
    ⟨fun x y => Nat.le_total x.observed y.observed⟩
  have htrans : IsTrans RetainedSuffix (fun x y => x.observed ≤ y.observed) :=
    ⟨fun _ _ _ hxy hyz => Nat.le_trans hxy hyz⟩
  apply List.Pairwise.insertionSort_eq
  rw [List.pairwise_map]
  exact List.pairwise_insertionSort (fun x y : RetainedSuffix => x.observed ≤ y.observed) s.suffixes

theorem ordered_moments_perm (s : RetentionSet) :
    (s.basisObserved :: (s.ordered.map RetainedSuffix.saved).map PersistedSuffix.observed).Perm
      s.moments := by
  rw [List.map_map]
  exact ((List.perm_insertionSort _ _).map _).cons _

/-- A restoration is the readmission of the suffixes and the three checks after it. -/
theorem restore_steps (hcf : CollisionFree C seen) (hzero : ∀ signed ∈ seen, C.sha256 signed ≠ 0)
    (hinv : s.Inv b) (hvalid : ∀ c ∈ s.persistedChains, ValidIn C seen identifier c) :
    ∃ chains next,
      (∀ c ∈ s.persistedChains, Restore.find chains c.headDigest = .ok (s.persistedCopy c)) ∧
      next ≤ u64Max ∧ (∀ m ∈ s.moments, m < next) ∧
      ∀ s', RetentionSet.restore C identifier s.persisted (.of s.basis) = .ok s' ↔
        Restore.readmit chains (s.emptied next) (s.ordered.map RetainedSuffix.saved) = .ok s' ∧
        Restore.checkTiePrefix s' = .ok () ∧
        Restore.checkUnits s' s.persisted.units.length = .ok () ∧
        Restore.checkAccepted s' = .ok () := by
  obtain ⟨chains, hvalidate, hheads⟩ := persisted_revalidates hcf hvalid hzero
  have hfind : ∀ c ∈ s.persistedChains,
      Restore.find chains c.headDigest = .ok (s.persistedCopy c) := by
    intro c hc
    rw [Restore.find, okOr_ok_iff]
    exact hheads c hc
  -- The persisted units are valid, so they are rebuilt to the persisted chains.
  have hrebuild : Restore.rebuild C identifier s.persisted.units = .ok chains := by
    have hunits : s.persisted.units ≠ [] := by
      intro hnil
      have hmem := s.basis.chain.headDigest_mem
      obtain ⟨e, he, -⟩ := List.mem_map.mp (persistedCopy_eventDigests (s := s) s.basis.chain ▸ hmem)
      have hu := (mem_persisted_units hcf hvalid e.unit).mpr
        ⟨_, List.mem_map.mpr ⟨s.basis.chain, by simp [RetentionSet.persistedChains], rfl⟩,
          List.mem_map.mpr ⟨e, he, rfl⟩⟩
      rw [hnil] at hu
      cases hu
    simp [Restore.rebuild, hunits, hvalidate]
  have hperm := ordered_moments_perm s
  obtain ⟨ms, hms, hmem⟩ := restoreMoments_ok [s.basisObserved]
    (s.ordered.map RetainedSuffix.saved) (hperm.nodup_iff.mpr hinv.moments)
  have hmoments : ∀ m, m ∈ ms ↔ m ∈ s.moments := fun m => (hmem m).trans hperm.mem_iff
  -- The next moment is past the latest one that was saved.
  obtain ⟨next, hnext, hroom, hbefore⟩ := restoreNext_ok
    (List.ne_nil_of_mem ((hmoments s.basisObserved).mpr List.mem_cons_self)) (by
      intro m hm
      have hlt := hinv.before m ((hmoments m).mp hm)
      have hle := hinv.room
      omega)
  refine ⟨chains, next, hfind, hroom, fun m hm => hbefore m ((hmoments m).mpr hm), ?_⟩
  intro s'
  have hagrees := agrees_of s
  have hbasis := restoreBasis_ok hinv hfind
  have hsorted := ordered_saved_sorted s
  have hsuffixes : s.persisted.suffixes = s.ordered.map RetainedSuffix.saved := rfl
  have hobserved : s.persisted.basis.observed = s.basisObserved := rfl
  unfold RetentionSet.restore
  simp only [hagrees, hrebuild, hbasis, hsuffixes, hobserved, hms, hnext, hsorted, require,
    bind_ok_iff, if_true, Except.ok.injEq, exists_eq_left', exists_const, pure_ok_iff]
  constructor
  · intro ⟨_, set, hread, (), htie, (), hunits, (), haccepted, hset⟩
    subst hset
    exact ⟨hread, htie, hunits, haccepted⟩
  · intro ⟨hread, htie, hunits, haccepted⟩
    exact ⟨trivial, s', hread, (), htie, (), hunits, (), haccepted, rfl⟩

theorem emptied_inv (hinv : s.Inv b) (hbook : ∀ c ∈ s.persistedChains, OnBook b (s.persistedCopy c))
    {next : ℕ} (hroom : next ≤ u64Max) (hbefore : ∀ m ∈ s.moments, m < next) :
    (s.emptied next).Inv b := by
  apply inv_of_no_suffix
  · rw [mapChain_chain]
    exact hbook _ (by simp [RetentionSet.persistedChains])
  · intro p hp
    obtain ⟨q, hq, rfl⟩ := Option.mem_map.mp hp
    exact hbook q (mem_persistedChains.mpr (.inr hq))
  · exact hbefore _ List.mem_cons_self
  · exact hroom
  · rw [mapChain_kind, Option.isSome_map]
    exact hinv.kind

/-- What is readmitted is the set that was persisted. -/
theorem readmit_readmitted (hinv : s.Inv b)
    (hfind : ∀ c ∈ s.persistedChains, Restore.find chains c.headDigest = .ok (s.persistedCopy c))
    (hbook : ∀ c ∈ s.persistedChains, OnBook b (s.persistedCopy c)) {next : ℕ}
    (hroom : next ≤ u64Max) (hbefore : ∀ m ∈ s.moments, m < next)
    (h : Restore.readmit chains (s.emptied next) (s.ordered.map RetainedSuffix.saved) = .ok s') :
    Readmitted b s s' ∧ ∀ P : ValidatedChain → Prop, (∀ c d, P c → P d → P (c.extendedBy d)) →
      (∀ c ∈ s.persistedChains, P (s.persistedCopy c)) → ∀ c ∈ s'.chains, P c := by
  have hmem {x : RetainedSuffix} (hx : x ∈ s.ordered) : x.chain ∈ s.persistedChains :=
    mem_persistedChains.mpr (.inl (List.mem_cons_of_mem _ (List.mem_map.mpr ⟨x, mem_ordered.mp hx, rfl⟩)))
  have hempty := emptied_inv hinv hbook hroom hbefore
  have hperm := ordered_moments_perm s
  have hnodup := hperm.nodup_iff.mpr hinv.moments
  rw [List.map_map, List.nodup_cons] at hnodup
  obtain ⟨⟨report, hall⟩, hstamps⟩ := readmit_placeAll (fun x hx => hfind _ (hmem hx)) hempty.onBook
    (fun x hx => hbook _ (hmem hx)) h .default
  -- The saved moments are distinct, apart from that of the basis and before the counter.
  have hfresh : FreshMoments (s.emptied next)
      (s.ordered.map (fun x => (some x.observed, s.persistedCopy x.chain))) := by
    refine ⟨?_, ?_⟩
    · rw [List.map_map]
      have hmoments : (s.ordered.map (Prod.fst ∘ fun x : RetainedSuffix =>
          (some x.observed, s.persistedCopy x.chain))).reduceOption =
          s.ordered.map RetainedSuffix.observed := by
        rw [List.reduceOption, List.filterMap_map, ← List.filterMap_eq_map]
        rfl
      rw [hmoments]
      exact hnodup.2
    · intro t ht m hm
      obtain ⟨x, hx, rfl⟩ := List.mem_map.mp ht
      have hmx : x.observed = m := Option.some.inj hm
      have hxm : x.observed ∈ s.ordered.map RetainedSuffix.observed := List.mem_map.mpr ⟨x, hx, rfl⟩
      subst hmx
      refine ⟨hbefore _ (hperm.mem_iff.mp (List.mem_cons_of_mem _ (by rw [List.map_map]; exact hxm))), ?_⟩
      intro _ hmoment
      have hsame : x.observed = s.basisObserved := by
        simpa [RetentionSet.moments, RetentionSet.emptied] using hmoment
      rw [hsame] at hxm
      exact hnodup.1 hxm
  have hplaces := placeAll_ok hempty (by
    intro t ht
    obtain ⟨x, hx, rfl⟩ := List.mem_map.mp ht
    exact hbook _ (hmem hx)) hfresh hall
  refine ⟨⟨hplaces.inv, hplaces.basis, hplaces.basisObserved, hplaces.tiePrefix, hplaces.bounds, ?_⟩, ?_⟩
  · rw [hstamps]
    simp [RetentionSet.emptied, RetainedSuffix.stamp]
  · intro P hP hcopies
    apply placeAll_closed hP _ _ hall
    · intro c hc
      simp only [RetentionSet.chains, RetentionSet.emptied, List.map_nil, List.mem_singleton] at hc
      rw [hc, mapChain_chain]
      exact hcopies _ (by simp [RetentionSet.persistedChains])
    · intro t ht
      obtain ⟨x, hx, rfl⟩ := List.mem_map.mp ht
      exact hcopies _ (hmem hx)

/-- The bytes past the forks that are held again are those of the persisted copies. -/
theorem Readmitted.persistedBytes_le (h : Readmitted b s s') (hinv : s.Inv b) {size : Digest → ℕ}
    (hbook : ∀ c ∈ s.persistedChains, OnBook b (s.persistedCopy c))
    (hsize : ∀ c ∈ s.persistedChains, Sized size (s.persistedCopy c))
    (hsize' : ∀ c ∈ s'.chains, Sized size c) :
    s.persistedBytes ≤ Bounds.registered.bytes := by
  have hbytes := h.inv.bytes
  rw [h.inv.retainedBytes_eq, h.bounds] at hbytes
  refine (unionLen_mono ?_).trans hbytes
  intro p hp
  obtain ⟨x, hx, hpx⟩ := List.mem_flatMap.mp hp
  -- The suffix that came back for `x` has its digests and its fork.
  have hsummary : x.stamp ∈ s'.suffixes.map RetainedSuffix.stamp := by
    rw [h.stamps]
    exact List.mem_map.mpr ⟨x, mem_ordered.mpr hx, rfl⟩
  obtain ⟨y, hy, hstamp⟩ := List.mem_map.mp hsummary
  have hdigests : y.chain.eventDigests = x.chain.eventDigests := (Prod.mk.inj hstamp).2
  have hfork : y.forkPosition = x.forkPosition := by
    rw [h.inv.forkPosition_eq hy, hinv.forkPosition_eq hx, hdigests, h.basis_digests]
  have hxm : x.chain ∈ s.persistedChains :=
    mem_persistedChains.mpr (.inl (List.mem_cons_of_mem _ (List.mem_map.mpr ⟨x, hx, rfl⟩)))
  have hym : y.chain ∈ s'.chains := List.mem_cons_of_mem _ (List.mem_map.mpr ⟨y, hy, rfl⟩)
  rw [(hbook _ hxm).unitLensFrom_eq (hsize _ hxm), persistedCopy_eventDigests, ← hdigests, ← hfork,
    ← (h.inv.onBook.chains _ hym).unitLensFrom_eq (hsize' _ hym)] at hpx
  exact List.mem_flatMap.mpr ⟨y, hy, hpx⟩

/-- Copies that fit are readmitted. -/
theorem emptied_refit (hinv : s.Inv b) (hbounds : s.bounds = .registered) {size : Digest → ℕ}
    (hbook : ∀ c ∈ s.persistedChains, OnBook b (s.persistedCopy c))
    (hsize : ∀ c ∈ s.persistedChains, Sized size (s.persistedCopy c)) {next : ℕ}
    (hroom : next ≤ u64Max) (hbefore : ∀ m ∈ s.moments, m < next)
    (hbytes : s.persistedBytes ≤ Bounds.registered.bytes) :
    Refit b size (s.emptied next)
      (s.ordered.map (fun x => (x.observed, s.persistedCopy x.chain))) := by
  have hmem {x : RetainedSuffix} (hx : x ∈ s.ordered) : x.chain ∈ s.persistedChains :=
    mem_persistedChains.mpr (.inl (List.mem_cons_of_mem _ (List.mem_map.mpr ⟨x, mem_ordered.mp hx, rfl⟩)))
  have hbasis : (s.emptied next).basis.chain = s.persistedCopy s.basis.chain :=
    mapChain_chain s.basis s.persistedCopy
  -- The persisted copies have the digests of the chains they stand for.
  have hdigests : (s.emptied next).basis.chain.eventDigests = s.basis.chain.eventDigests := by
    rw [hbasis, persistedCopy_eventDigests]
  have hperm : s.ordered.Perm s.suffixes := List.perm_insertionSort _ _
  refine ⟨(emptied_inv hinv hbook hroom hbefore).onBook, ?_, ?_, ?_, ?_, by simp [RetentionSet.emptied],
    ?_, by simp [RetentionSet.emptied], ?_, ?_⟩
  · intro t ht
    obtain ⟨x, hx, rfl⟩ := List.mem_map.mp ht
    exact hbook _ (hmem hx)
  · intro c hc
    rw [RetentionSet.chains, hbasis] at hc
    rw [List.mem_singleton.mp hc]
    exact hsize _ (by simp [RetentionSet.persistedChains])
  · intro t ht
    obtain ⟨x, hx, rfl⟩ := List.mem_map.mp ht
    exact hsize _ (hmem hx)
  · intro t ht _ hkind hext
    obtain ⟨x, hx, rfl⟩ := List.mem_map.mp ht
    rw [hdigests, persistedCopy_eventDigests] at hext
    have hk : s.basis.kind = .accepted := by
      rw [← hkind]
      exact (mapChain_kind s.basis s.persistedCopy).symm
    have hranks := hinv.ranks x (mem_ordered.mp hx)
    rw [rankPlacement_eq hinv.onBook (hinv.onBook.suffixes x (mem_ordered.mp hx))] at hranks
    rcases placement_ok hranks with ⟨hnone, _⟩ | ⟨_, _, _, htie⟩
    · cases hnone
    · rw [RetentionSet.emptied, Option.isSome_map]
      exact htie hk hext
  · rw [List.pairwise_map]
    simp only [persistedCopy_eventDigests]
    refine (hperm.pairwise_iff ?_).mpr hinv.apart
    exact fun hxy => hxy.symm
  · have hcount := hinv.count
    rw [hbounds] at hcount
    have hle := List.countP_le_length (p := fun t : ℕ × ValidatedChain =>
      ¬ t.2.eventDigests <+: (s.emptied next).basis.chain.eventDigests)
      (l := s.ordered.map (fun x => (x.observed, s.persistedCopy x.chain)))
    rw [List.length_map, hperm.length_eq] at hle
    change 0 + _ ≤ Bounds.registered.suffixes
    omega
  · refine (unionLen_mono ?_).trans hbytes
    intro p hp
    rw [show (s.emptied next).suffixes = [] from rfl, List.flatMap_nil, List.nil_append] at hp
    obtain ⟨t, ht, hpt⟩ := List.mem_flatMap.mp hp
    obtain ⟨x, hx, rfl⟩ := List.mem_map.mp ht
    refine List.mem_flatMap.mpr ⟨x, mem_ordered.mp hx, ?_⟩
    rw [ValidatedChain.sharedPrefixLen_eq, hdigests, persistedCopy_eventDigests,
      ← hinv.forkPosition_eq (mem_ordered.mp hx)] at hpt
    exact hpt

end Steps

section Classified
variable {C : Crypto} {seen : Set Bytes} {identifier : Identifier} {s s' : RetentionSet}

theorem settleTiePrefix_bounds (h : s.settleTiePrefix = .ok s') : s'.bounds = s.bounds := by
  unfold RetentionSet.settleTiePrefix at h
  split at h
  · cases h
    rfl
  · simp only [bind_ok_iff, pure_ok_iff] at h
    obtain ⟨tie, -, rfl⟩ := h
    rfl

theorem Write.bounds (hcf : CollisionFree C seen) (hs : Reachable C seen identifier s)
    (h : Write C seen identifier s s') : s'.bounds = s.bounds := by
  have hinv := (hs.inv hcf).1
  cases h with
  | admits hc h =>
    unfold RetentionSet.admit_ at h
    split at h
    · cases h
    · rename_i placed hplace
      split at h
      · cases h
      · rename_i settled hsettled
        cases h
        rw [settleTiePrefix_bounds hsettled]
        exact (place_cases hinv.onBook (hc.onBook hcf) hplace).frame.2.2.2
  | rerank hb h => exact (rerank_ok hinv (hb.onBook hcf) h).bounds
  | afterContest ht hc h =>
    obtain ⟨target, tieGiven, report₁, moved, placed, tie, -, hmoves, hplaces, rfl, -, -⟩ :=
      afterContest_ok hinv (ht.onBook hcf) (fun c hcm => (hc c hcm).onBook hcf) h
    exact hplaces.bounds.trans hmoves.bounds
  | confirmAccepted hc h => rfl

theorem Writes.bounds (hcf : CollisionFree C seen) (hs : Reachable C seen identifier s)
    (h : Writes C seen identifier s s') : s'.bounds = s.bounds := by
  induction h with
  | refl => rfl
  | tail hfirst hlast ih => exact (hlast.bounds hcf (hs.writes hfirst)).trans ih

/-- A run keeps its sets under the registered bounds. -/
theorem Classified.bounds (hcf : CollisionFree C seen) {held : Option RetentionSet}
    (h : Classified C seen identifier held) : ∀ set ∈ held, set.bounds = .registered := by
  induction h with
  | start => simp
  | @call _ held reads now r before hreads hcall ih =>
    intro set hset
    rcases classify_written hcf (before.reachable hcf) hreads hcall with hsame | ⟨next, hnext, hwritten⟩
    · rw [hsame] at hset
      exact ih set hset
    · rw [Option.mem_def, hnext, Option.some.injEq] at hset
      subst hset
      cases held with
      | none =>
        obtain ⟨basis, hbasis, hwrites⟩ := hwritten
        exact Writes.bounds hcf (.withBounds .registered hbasis) hwrites
      | some set => exact (Writes.bounds hcf (before.reachable hcf set rfl) hwritten).trans (ih set rfl)

/-- A set that classifications lead to comes back as it was persisted if and only if no
suffix wins over an accepted basis and the persisted copies fit the byte bound. -/
theorem classified_restores_iff (C : Crypto) (seen : Set Bytes) (identifier : Identifier)
    (hcf : CollisionFree C seen) (hzero : ∀ signed ∈ seen, C.sha256 signed ≠ 0)
    (held : Option RetentionSet) (h : Classified C seen identifier held) (s : RetentionSet)
    (hs : s ∈ held) :
    (∃ s', RetentionSet.restore C identifier s.persisted (.of s.basis) = .ok s' ∧ s.RestoredAs s') ↔
      (s.basis.kind = .accepted → s.winningSuffix = .ok none) ∧
        s.persistedBytes ≤ Bounds.registered.bytes := by
  have hreach := h.reachable hcf s hs
  have hbounds := h.bounds hcf s hs
  obtain ⟨hinv, hcarried⟩ := hreach.inv hcf
  have hvalid : ∀ c ∈ s.persistedChains, ValidIn C seen identifier c := by
    intro c hc
    rcases mem_persistedChains.mp hc with hc | hc
    · exact hreach.validIn hcf c hc
    · exact hreach.tiePrefix_validIn hcf c hc
  have hbook : ∀ c ∈ s.persistedChains, OnBook (bookOf C seen identifier) (s.persistedCopy c) :=
    fun c hc => (persistedCopy_validIn hcf hvalid hc).onBook hcf
  have hcopies : ∀ c ∈ s.persistedChains.map s.persistedCopy,
      ∀ d ∈ s.persistedChains.map s.persistedCopy, SameCopies c d := by
    intro _ hcm _ hdm
    obtain ⟨c, hc, rfl⟩ := List.mem_map.mp hcm
    obtain ⟨d, hd, rfl⟩ := List.mem_map.mp hdm
    exact persistedCopy_sameCopies hcf hvalid hc hd
  -- The persisted copies agree, so one function gives the length of each event.
  obtain ⟨size, hsized⟩ := exists_sized hcopies
  have hsize : ∀ c ∈ s.persistedChains, Sized size (s.persistedCopy c) :=
    fun c hc => hsized _ (List.mem_map.mpr ⟨c, hc, rfl⟩)
  obtain ⟨chains, next, hfind, hroom, hbefore, hsteps⟩ := restore_steps hcf hzero hinv hvalid
  constructor
  · intro ⟨s', hrestore, _⟩
    obtain ⟨hread, -, -, haccepted⟩ := (hsteps s').mp hrestore
    obtain ⟨hback, hclosed⟩ := readmit_readmitted hinv hfind hbook hroom hbefore hread
    refine ⟨(hback.checkAccepted_iff hinv.onBook).mp haccepted, ?_⟩
    exact hback.persistedBytes_le hinv hbook hsize
      (hclosed (Sized size) (fun c d hc hd => hc.extendedBy hd) hsize)
  · intro ⟨haccepted, hbytes⟩
    have hmem {x : RetainedSuffix} (hx : x ∈ s.ordered) : x.chain ∈ s.persistedChains :=
      mem_persistedChains.mpr
        (.inl (List.mem_cons_of_mem _ (List.mem_map.mpr ⟨x, mem_ordered.mp hx, rfl⟩)))
    obtain ⟨s', hread⟩ := readmit_of_refit (fun x hx => hfind _ (hmem hx)) (by
      intro x hx
      rw [RetentionSet.emptied, mapChain_chain, persistedCopy_eventDigests, persistedCopy_eventDigests]
      exact hinv.offBasis x (mem_ordered.mp hx))
      (emptied_refit hinv hbounds hbook hsize hroom hbefore hbytes)
    obtain ⟨hback, -⟩ := readmit_readmitted hinv hfind hbook hroom hbefore hread
    exact ⟨s', (hsteps s').mpr ⟨hread, hback.checkTiePrefix hcarried, hback.checkUnits,
      (hback.checkAccepted_iff hinv.onBook).mpr haccepted⟩, hback.restoredAs hinv⟩

end Classified

section Sample

def sampleTwigUnits : List Bytes :=
  sampleUnit sampleInception 1 :: sampleUnit (sampleRecovery 4 5) 3 ::
    (List.range 8).map (fun i => sampleCopy (sampleKeyState (600+i)) 1 0)

/-- A second recovery, over the first of the key states. -/
def sampleSecondAfter : EventPreimage :=
  { sampleSecond 8 9 with
    sequence := 3
    predecessorDigest := eventDigestOf sampleCrypto (fieldsOut (sampleKeyState 600)) }

def sampleLongUnits : List Bytes :=
  [sampleUnit sampleInception 1, sampleUnit (sampleRecovery 4 5) 3, sampleCopy (sampleKeyState 600) 1 0,
    sampleUnit sampleSecondAfter 3]

def sampleOtherRecoveryUnits : List Bytes :=
  [sampleUnit sampleInception 1, sampleUnit (sampleRecovery 6 7) 3]

/-- Calls that fill the bound of suffixes with chains that tie. -/
def sampleTiedCalls : List (List SourceRead × ℕ) :=
  [sampleFirstCall, ([sampleRead 1 sampleTwigUnits (by decide)], 1)]

/-- A call that extends one of the tied chains, and serves a rival the bound refuses. -/
def sampleLongCall : List SourceRead × ℕ :=
  ([sampleRead 1 sampleLongUnits (by decide), sampleRead 2 sampleOtherRecoveryUnits (by decide)], 2)

def sampleTiedUnits : List Bytes :=
  sampleFirstUnits ++ sampleTwigUnits.tail ++ [sampleUnit sampleSecondAfter 3] ++
    sampleOtherRecoveryUnits.tail

theorem sampleTied_world : CollisionFree sampleCrypto (preimagesOf sampleTiedUnits) ∧
    ∀ signed ∈ preimagesOf sampleTiedUnits, sampleCrypto.sha256 signed ≠ 0 :=
  world_of_hashes (by decide +kernel)

theorem sampleTied_reads : ∀ call ∈ sampleTiedCalls ++ [sampleLongCall], ∀ read ∈ call.1,
    preimagesOf read.units ⊆ preimagesOf sampleTiedUnits := by
  have hunits : ∀ call ∈ sampleTiedCalls ++ [sampleLongCall], ∀ read ∈ call.1,
      ∀ u ∈ read.units, u ∈ sampleTiedUnits := by
    decide +kernel
  intro call hcall read hread signed hsigned
  obtain ⟨u, hu, hfields⟩ := hsigned
  exact ⟨u, hunits call hcall read hread u hu, hfields⟩

theorem sampleTied_classified {calls : List (List SourceRead × ℕ)} {held : Option RetentionSet}
    (hcalls : calls ⊆ sampleTiedCalls ++ [sampleLongCall])
    (h : classifyEach sampleCrypto sampleIdentifier none calls = .ok held) :
    Classified sampleCrypto (preimagesOf sampleTiedUnits) sampleIdentifier held :=
  Classified.each .start (fun call hcall => sampleTied_reads call (hcalls hcall)) h

/-- The set that the three calls lead to is refused by its own restore: the extended
chain wins over every chain still held, for the rival that tied with it was refused. -/
theorem classified_not_restored :
    CollisionFree sampleCrypto (preimagesOf sampleTiedUnits) ∧
    ∃ held, Classified sampleCrypto (preimagesOf sampleTiedUnits) sampleIdentifier held ∧
      classifyEach sampleCrypto sampleIdentifier none (sampleTiedCalls ++ [sampleLongCall]) = .ok held ∧
      ∃ s ∈ held, ∀ s', RetentionSet.restore sampleCrypto sampleIdentifier s.persisted (.of s.basis) ≠
        .ok s' := by
  have hrun : (classifyEach sampleCrypto sampleIdentifier none
      (sampleTiedCalls ++ [sampleLongCall])).toOption.any (fun held => decide
        (∃ s ∈ held, (RetentionSet.restore sampleCrypto sampleIdentifier s.persisted
          (.of s.basis)).toOption.isNone = true)) = true := by
    decide +kernel
  obtain ⟨held, hheld, hfails⟩ := ok_of_toOption_any hrun
  obtain ⟨s, hs, hnone⟩ := of_decide_eq_true hfails
  refine ⟨sampleTied_world.1, held, sampleTied_classified (fun _ h => h) hheld, hheld, s, hs, ?_⟩
  intro s' hs'
  rw [hs'] at hnone
  cases hnone

/-- Before the last of those calls the set comes back. -/
theorem classified_restores_sample :
    ∃ held, classifyEach sampleCrypto sampleIdentifier none sampleTiedCalls = .ok held ∧
      ∃ s ∈ held, s.suffixes.length = 8 ∧
        ∃ s', RetentionSet.restore sampleCrypto sampleIdentifier s.persisted (.of s.basis) = .ok s' ∧
          s.RestoredAs s' := by
  have hrun : (classifyEach sampleCrypto sampleIdentifier none sampleTiedCalls).toOption.any
      (fun held => decide (∃ s ∈ held, s.suffixes.length = 8 ∧
        (s.basis.kind = .accepted → s.winningSuffix = .ok none) ∧
          s.persistedBytes ≤ Bounds.registered.bytes)) = true := by
    decide +kernel
  obtain ⟨held, hheld, hholds⟩ := ok_of_toOption_any hrun
  obtain ⟨s, hs, hlen, hcond⟩ := of_decide_eq_true hholds
  have hclassified := sampleTied_classified (List.subset_append_left _ _) hheld
  exact ⟨held, hheld, s, hs, hlen, (classified_restores_iff sampleCrypto (preimagesOf sampleTiedUnits)
    sampleIdentifier sampleTied_world.1 sampleTied_world.2 held hclassified s hs).mpr hcond⟩

end Sample

end ScpCore.Kel
