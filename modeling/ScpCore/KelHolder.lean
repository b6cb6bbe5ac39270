import ScpCore.KelReach
import ScpCore.KelRebuild

/-! The chain a store that validates key-event frames holds as accepted, and the
divergent suffixes it retains beside it. What it holds is always a reachable
retention set of valid chains. -/

namespace ScpCore.Kel

/-- What holding one more chain did. -/
inductive HoldOutcome
  | alreadyHeld
  | acceptedExtended (rerank : Rerank)
  | acceptedReplaced (displaced : Digest) (admission : Option Admission) (rerank : Rerank)
  | heldDivergent (admission : Admission)
  | refused (rank : ForkRank)
  deriving DecidableEq

inductive HoldError
  | resolve (error : ResolveError)
  | retention (error : RetentionError)
  deriving DecidableEq

/-- The accepted chain as the basis of a retention set, once a chain is held. -/
structure AcceptedChainHolder where
  set : Option RetentionSet
  bounds : Bounds
  deriving DecidableEq

/-- What a chain's arrival leads to: an outcome that changes nothing, or a set in
which the accepted chain is yet to be decided again. -/
inductive Arrival
  | settled (outcome : HoldOutcome)
  | pending (admission : Option Admission) (rerank : Rerank) (next : RetentionSet)
  deriving DecidableEq

namespace RetentionSet
variable (s : RetentionSet)

/-- The first half of `hold`: an extension of the accepted chain moves the basis
to it, and any other chain is admitted beside it. -/
def arrive (chain : ValidatedChain) : Except HoldError Arrival := do
  match ← (pairChains chain s.basis.chain).mapError (fun e => .resolve (.unrelated e)) with
  | .identical | .leftPrefixOfRight => pure (.settled .alreadyHeld)
  | .rightPrefixOfLeft =>
    let moved := s.rerank (.accepted (s.basis.chain.extendedBy chain))
    let rerank ← moved.1.mapError .retention
    pure (.pending none rerank moved.2)
  | .diverged _ =>
    let admitted := s.admit_ chain
    let admission ← admitted.1.mapError .retention
    pure (match admission with
      | .alreadyHeld => .settled .alreadyHeld
      | .refused rank => .settled (.refused rank)
      | admission => .pending (some admission) .default admitted.2)

/-- The second half of `hold`: acceptance moves to the suffix that displaces the basis. -/
def redecide (admission : Option Admission) (rerank : Rerank) :
    Except HoldError (HoldOutcome × RetentionSet) := do
  let displaced := s.basis.chain.headDigest
  let winner ← s.displacingSuffix.mapError .resolve
  match winner.map (·.chain), admission with
  | none, none => pure (.acceptedExtended rerank, s)
  | none, some admission => pure (.heldDivergent admission, s)
  | some chain, admission =>
    let moved := s.rerank (.accepted chain)
    let report ← moved.1.mapError .retention
    pure (.acceptedReplaced displaced admission (rerank.absorb report), moved.2)

end RetentionSet

namespace AcceptedChainHolder

def withBounds (bounds : Bounds) : AcceptedChainHolder := ⟨none, bounds⟩

def new : AcceptedChainHolder := withBounds .registered

variable (holder : AcceptedChainHolder)

/-- Every held chain, in the order of the moment each was first held. -/
def held : List ValidatedChain :=
  holder.set.elim [] (fun s =>
    (((s.basisObserved, s.basis.chain) ::
      s.suffixes.map (fun suffix => (suffix.observed, suffix.chain))).insertionSort
        (fun a b => a.1 ≤ b.1)).map Prod.snd)

/-- `hold`, with the holder it leaves. The set is written once, at the end, so
an error or an outcome that settles early leaves it as it was. -/
def hold (chain : ValidatedChain) : Except HoldError HoldOutcome × AcceptedChainHolder :=
  match holder.set with
  | none => (.ok (.acceptedExtended .default),
      { holder with set := some (.withBounds (.accepted chain) holder.bounds) })
  | some s =>
    match s.arrive chain with
    | .error error => (.error error, holder)
    | .ok (.settled outcome) => (.ok outcome, holder)
    | .ok (.pending admission rerank next) =>
      match next.redecide admission rerank with
      | .error error => (.error error, holder)
      | .ok (outcome, decided) => (.ok outcome, { holder with set := some decided })

theorem mem_held {c : ValidatedChain} : c ∈ holder.held ↔ ∃ s ∈ holder.set, c ∈ s.chains := by
  unfold held
  cases holder.set with
  | none => simp
  | some s =>
    simp only [Option.elim_some, List.mem_map, List.mem_insertionSort, Option.mem_some_iff,
      exists_eq_left', RetentionSet.chains, List.mem_cons, Prod.exists]
    constructor
    · intro h
      obtain ⟨m, x, hx | ⟨suffix, hsuffix, hx⟩, rfl⟩ := h
      · exact .inl (Prod.mk.inj hx).2
      · exact .inr ⟨suffix, hsuffix, (Prod.mk.inj hx).2⟩
    · intro h
      rcases h with rfl | ⟨suffix, hsuffix, rfl⟩
      · exact ⟨_, _, .inl rfl, rfl⟩
      · exact ⟨_, _, .inr ⟨suffix, hsuffix, rfl⟩, rfl⟩

/-- A failed call holds what was held. -/
theorem hold_error {chain : ValidatedChain} {error : HoldError}
    (h : (holder.hold chain).1 = .error error) : (holder.hold chain).2 = holder := by
  unfold hold at h ⊢
  split
  · rename_i hset
    rw [hset] at h
    cases h
  · rename_i s hset
    rw [hset] at h
    dsimp only at h
    split
    · rfl
    · rfl
    · rename_i harrive
      rw [harrive] at h
      dsimp only at h
      split
      · rfl
      · rename_i hdecide
        rw [hdecide] at h
        cases h

end AcceptedChainHolder

section Closed
variable {P : ValidatedChain → Prop} (hP : ∀ c d, P c → P d → P (c.extendedBy d))
  {s s' : RetentionSet}
include hP

theorem heldCopies_closed (hs : ∀ c ∈ s.chains, P c) {candidate : ValidatedChain}
    (hc : P candidate) : P (s.heldCopies candidate) := by
  obtain ⟨source, hmem, he, -⟩ := heldCopies_source s candidate
  rw [he]
  exact hP source candidate (hs source hmem) hc

/-- A placement holds what was held and the candidate in held copies. -/
theorem place_closed (hs : ∀ c ∈ s.chains, P c) {candidate : ValidatedChain} (hc : P candidate)
    {observed : Option ℕ} {admission : Admission}
    (h : s.place candidate observed = .ok (admission, s')) : ∀ c ∈ s'.chains, P c := by
  simp only [RetentionSet.place, bind_ok_iff] at h
  obtain ⟨placement, -, h⟩ := h
  split at h
  · rw [pure_ok_iff, Prod.mk.injEq] at h
    rwa [← h.2]
  · rename_i rank fork
    rw [bind_ok_iff] at h
    obtain ⟨found, -, h⟩ := h
    split at h
    · rw [pure_ok_iff, Prod.mk.injEq] at h
      rwa [← h.2]
    · rename_i extended
      simp only [RetentionSet.enter, bind_ok_iff, pure_ok_iff] at h
      obtain ⟨next, -, guards, -, h⟩ := h
      cases hplan : planEvictions (s.suffixes.map (·.slot)) guards extended
          (s.slotFor (s.heldCopies candidate) observed rank fork extended) s.bounds with
      | none =>
        rw [hplan, Option.elim_none, Prod.mk.injEq] at h
        rwa [← h.2]
      | some evict =>
        rw [hplan, Option.elim_some, Prod.mk.injEq] at h
        rw [← h.2]
        intro c hcm
        simp only [RetentionSet.chains, RetentionSet.entered, List.map_append, List.map_cons,
          List.map_nil, List.mem_cons, List.mem_append, List.not_mem_nil, or_false] at hcm
        rcases hcm with rfl | hcm | rfl
        · exact hs _ List.mem_cons_self
        · obtain ⟨x, hx, rfl⟩ := List.mem_map.mp hcm
          obtain ⟨t, ht, rfl⟩ := List.mem_map.mp hx
          have hmem := List.fst_mem_of_mem_zipIdx (List.mem_of_mem_filter ht)
          exact hs _ (List.mem_cons_of_mem _ (List.mem_map.mpr ⟨t.1, hmem, rfl⟩))
        · exact heldCopies_closed hP hs hc

theorem placeAll_closed {todo : List (Option ℕ × ValidatedChain)} {report report' : Rerank}
    (hs : ∀ c ∈ s.chains, P c) (htodo : ∀ t ∈ todo, P t.2)
    (h : RetentionSet.placeAll s report todo = .ok (report', s')) : ∀ c ∈ s'.chains, P c := by
  induction todo generalizing s report with
  | nil =>
    simp only [RetentionSet.placeAll, Except.ok.injEq, Prod.mk.injEq] at h
    rwa [← h.2]
  | cons t rest ih =>
    obtain ⟨observed, chain⟩ := t
    simp only [RetentionSet.placeAll, bind_ok_iff, Prod.exists] at h
    obtain ⟨admission, placed, hplace, h⟩ := h
    have hplaced := place_closed hP hs (htodo (observed, chain) List.mem_cons_self) hplace
    exact ih hplaced (fun t ht => htodo t (List.mem_cons_of_mem _ ht)) h

/-- A move holds the new basis and the chains held before, in held copies. -/
theorem moveTo_closed (hs : ∀ c ∈ s.chains, P c) {basis : RetentionBasis}
    {tiePrefix : Option ValidatedChain} (hb : P basis.chain) {report : Rerank}
    (h : s.moveTo basis tiePrefix = .ok (report, s')) : ∀ c ∈ s'.chains, P c := by
  simp only [RetentionSet.moveTo, bind_ok_iff, Prod.exists] at h
  obtain ⟨found, -, moment, next, -, h⟩ := h
  apply placeAll_closed hP _ _ h
  · intro c hc
    simp only [RetentionSet.chains, List.map_nil, List.mem_singleton] at hc
    rw [hc, mapChain_chain]
    exact heldCopies_closed hP hs hb
  · intro t ht
    obtain ⟨entry, hentry, rfl⟩ := List.mem_map.mp ht
    exact hs _ (mem_chains_iff_entry.mpr ⟨entry.1, hentry⟩)

end Closed

section Held
variable {C : Crypto} {seen : Set Bytes} {identifier : Identifier} {s s' : RetentionSet}
  (hcf : CollisionFree C seen)
include hcf

omit hcf in
theorem settleTiePrefix_chains (h : s.settleTiePrefix = .ok s') : s'.chains = s.chains := by
  unfold RetentionSet.settleTiePrefix at h
  split at h
  · cases h
    rfl
  · simp only [bind_ok_iff, pure_ok_iff] at h
    obtain ⟨tie, -, rfl⟩ := h
    rfl

omit hcf in
theorem admit_chains_closed {P : ValidatedChain → Prop} (hP : ∀ c d, P c → P d → P (c.extendedBy d))
    (hs : ∀ c ∈ s.chains, P c) {candidate : ValidatedChain} (hc : P candidate)
    {admission : Admission} (h : s.admit_ candidate = (.ok admission, s')) :
    ∀ c ∈ s'.chains, P c := by
  unfold RetentionSet.admit_ at h
  split at h
  · cases h
  · rename_i placed hplace
    split at h
    · cases h
    · rename_i settled hsettle
      cases h
      rw [settleTiePrefix_chains hsettle]
      exact place_closed hP hs hc hplace

/-- Every chain a reachable set holds is valid, with the copies it holds it in. -/
theorem Reachable.validIn (h : Reachable C seen identifier s) :
    ∀ c ∈ s.chains, ValidIn C seen identifier c := by
  have hP : ∀ c d, ValidIn C seen identifier c → ValidIn C seen identifier d →
      ValidIn C seen identifier (c.extendedBy d) := fun c d hc hd => hc.extendedBy hcf hd
  induction h with
  | withBounds bounds hb =>
    intro c hc
    rwa [List.mem_singleton.mp hc]
  | admits _ hc h ih => exact admit_chains_closed hP ih hc h
  | @rerank s s' basis report _ hb h ih =>
    unfold RetentionSet.rerank at h
    split at h
    · cases h
    · split at h
      · cases h
      · rename_i hmove
        cases h
        exact moveTo_closed hP ih hb hmove
  | @afterContest s s' tiePrefix candidates report hs ht hc h ih =>
    simp only [RetentionSet.afterContest, bind_ok_iff, mapError_ok_iff, pure_ok_iff, Prod.exists,
      Prod.mk.injEq] at h
    obtain ⟨report₁, moved, hmove, report₂, placed, hplace, settled, hsettle, -, rfl⟩ := h
    rw [settleTiePrefix_chains hsettle]
    have hmoved : ∀ c ∈ moved.chains, ValidIn C seen identifier c := by
      unfold RetentionSet.moveToTie at hmove
      split at hmove
      · rename_i accepted hbasis
        have hbc : ValidIn C seen identifier (RetentionBasis.accepted accepted).chain := by
          apply ih
          rw [RetentionSet.chains, hbasis]
          exact List.mem_cons_self
        exact moveTo_closed hP ih hbc hmove
      · have htc : ValidIn C seen identifier (RetentionBasis.contestedPrefix tiePrefix).chain := ht
        exact moveTo_closed hP ih htc hmove
    apply placeAll_closed hP hmoved _ hplace
    intro t hmem
    obtain ⟨c, hcm, rfl⟩ := List.mem_map.mp hmem
    exact hc c hcm
  | confirmAccepted _ _ _ ih => exact ih

omit hcf in
theorem displacingSuffix_mem {x : RetainedSuffix} (h : s.displacingSuffix = .ok (some x)) :
    x ∈ s.suffixes := by
  have hat {index : ℕ} (h : (if index = 0 then none else s.suffixes[index-1]?) = some x) :
      x ∈ s.suffixes := by
    split_ifs at h
    exact List.mem_of_getElem? h
  simp only [RetentionSet.displacingSuffix, bind_ok_iff] at h
  obtain ⟨tournament, -, outcome, -, h⟩ := h
  split at h
  · simp only [bind_ok_iff, pure_ok_iff] at h
    obtain ⟨index, -, h⟩ := h
    exact hat h
  · simp only [bind_ok_iff, pure_ok_iff] at h
    obtain ⟨index, -, h⟩ := h
    exact hat h

/-- What an arrival leaves pending is reachable. -/
theorem arrive_reachable (hs : Reachable C seen identifier s) {chain : ValidatedChain}
    (hc : ValidIn C seen identifier chain) {admission : Option Admission} {rerank : Rerank}
    (h : s.arrive chain = .ok (.pending admission rerank s')) :
    Reachable C seen identifier s' := by
  simp only [RetentionSet.arrive, bind_ok_iff, mapError_ok_iff] at h
  obtain ⟨pairing, -, h⟩ := h
  split at h
  · cases h
  · cases h
  · simp only [bind_ok_iff, mapError_ok_iff, pure_ok_iff, Arrival.pending.injEq] at h
    obtain ⟨report, hreport, rfl, rfl, rfl⟩ := h
    have hb : ValidIn C seen identifier
        (RetentionBasis.accepted (s.basis.chain.extendedBy chain)).chain :=
      (hs.validIn hcf _ List.mem_cons_self).extendedBy hcf hc
    exact .rerank hs hb (Prod.ext hreport rfl)
  · simp only [bind_ok_iff, mapError_ok_iff, pure_ok_iff] at h
    obtain ⟨admitted, hadmitted, h⟩ := h
    split at h
    · cases h
    · cases h
    · cases h
      exact .admits hs hc (Prod.ext hadmitted rfl)

theorem redecide_reachable (hs : Reachable C seen identifier s) {admission : Option Admission}
    {rerank : Rerank} {outcome : HoldOutcome}
    (h : s.redecide admission rerank = .ok (outcome, s')) : Reachable C seen identifier s' := by
  simp only [RetentionSet.redecide, bind_ok_iff, mapError_ok_iff] at h
  obtain ⟨winner, hwinner, h⟩ := h
  split at h
  · cases h
    exact hs
  · cases h
    exact hs
  · rename_i chain _ hchain
    simp only [bind_ok_iff, mapError_ok_iff, pure_ok_iff, Prod.mk.injEq] at h
    obtain ⟨report, hreport, -, rfl⟩ := h
    obtain ⟨x, rfl, rfl⟩ := Option.map_eq_some_iff.mp hchain
    have hx := displacingSuffix_mem hwinner
    have hb : ValidIn C seen identifier (RetentionBasis.accepted x.chain).chain :=
      hs.validIn hcf _ (List.mem_cons_of_mem _ (List.mem_map.mpr ⟨x, hx, rfl⟩))
    exact .rerank hs hb (Prod.ext hreport rfl)

/-- Holding a valid chain keeps what is held reachable. -/
theorem hold_reachable {holder : AcceptedChainHolder}
    (hs : ∀ s ∈ holder.set, Reachable C seen identifier s) {chain : ValidatedChain}
    (hc : ValidIn C seen identifier chain) :
    ∀ s ∈ (holder.hold chain).2.set, Reachable C seen identifier s := by
  unfold AcceptedChainHolder.hold
  split
  · intro s hmem
    obtain rfl := Option.some.inj hmem
    exact .withBounds holder.bounds hc
  · rename_i s hset
    have hs₀ := hs s hset
    split
    · exact hs
    · exact hs
    · rename_i admission rerank next harrive
      have hnext := arrive_reachable hcf hs₀ hc harrive
      split
      · exact hs
      · rename_i outcome decided hdecide
        intro s hmem
        obtain rfl := Option.some.inj hmem
        exact redecide_reachable hcf hnext hdecide

end Held

end ScpCore.Kel
