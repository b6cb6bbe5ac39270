import ScpCore.KelRank

/-! The divergent suffixes a party retains beside one basis, under a count and a
byte bound, with the eviction rule that keeps them. -/

namespace ScpCore.Kel

structure Bounds where
  suffixes : ℕ
  bytes : ℕ
  deriving DecidableEq

/-- `MAX_RETAINED_SUFFIXES` and `MAX_RETAINED_BYTES`. -/
def Bounds.registered : Bounds := ⟨8, 536870912⟩

inductive BasisKind
  | accepted | contestedPrefix
  deriving DecidableEq

inductive RetentionBasis
  | accepted (chain : ValidatedChain)
  | contestedPrefix (chain : ValidatedChain)
  deriving DecidableEq

namespace RetentionBasis

def chain : RetentionBasis → ValidatedChain
  | accepted chain | contestedPrefix chain => chain

def kind : RetentionBasis → BasisKind
  | accepted _ => .accepted
  | contestedPrefix _ => .contestedPrefix

def mapChain (f : ValidatedChain → ValidatedChain) : RetentionBasis → RetentionBasis
  | accepted chain => accepted (f chain)
  | contestedPrefix chain => contestedPrefix (f chain)

end RetentionBasis

/-- What the planner reads of a suffix: its rank, its moment and its events past
the fork with their lengths. -/
structure Slot where
  rank : ForkRank
  observed : ℕ
  events : List (Digest × ℕ)
  deriving DecidableEq

structure RetainedSuffix where
  chain : ValidatedChain
  forkPosition : ℕ
  slot : Slot
  deriving DecidableEq

namespace RetainedSuffix
variable (s : RetainedSuffix)

def head : Digest := s.chain.headDigest

def rank : ForkRank := s.slot.rank

def observed : ℕ := s.slot.observed

end RetainedSuffix

inductive Admission
  | retained (rank : ForkRank) (evicted : List Digest)
  | extended (rank : ForkRank) (replaced : Digest) (evicted : List Digest)
  | alreadyHeld
  | refused (rank : ForkRank)
  deriving DecidableEq

inductive RetentionError
  | unrelated (error : UnrelatedChains)
  | extendsAccepted (head : Digest)
  | observedExhausted
  | contestedAfterAccepted (accepted : Digest)
  deriving DecidableEq

structure Rerank where
  alreadyHeld : List Digest
  evicted : List Digest
  refused : List Digest
  deriving DecidableEq

namespace Rerank

def default : Rerank := ⟨[], [], []⟩

def absorb (report later : Rerank) : Rerank :=
  ⟨report.alreadyHeld ++ later.alreadyHeld, report.evicted ++ later.evicted,
    report.refused ++ later.refused⟩

/-- The report with one more chain re-placed. -/
def count (report : Rerank) (head : Digest) : Admission → Rerank
  | .alreadyHeld => { report with alreadyHeld := report.alreadyHeld ++ [head] }
  | .retained _ evicted | .extended _ _ evicted =>
    { report with evicted := report.evicted ++ evicted }
  | .refused _ => { report with refused := report.refused ++ [head] }

end Rerank

/-- A suffix the basis or the candidate beats may go; any other only while one
of the suffixes that beat it stays. -/
inductive Guard
  | opened
  | tied (beatenBy : List ℕ)
  deriving DecidableEq

def guarded (guards : List Guard) (kept : List Bool) (index : ℕ) : Bool :=
  match guards[index]? with
  | some (.tied beatenBy) => beatenBy.all (fun beater => !(kept[beater]?).getD false)
  | some .opened | none => false

/-- The bytes of the slots' events, each digest once. -/
def unionBytes (slots : List Slot) : ℕ :=
  -- A later length of one digest replaces an earlier one, so the last is entered first.
  (((OrderedMap.orInsertAll ([] : OrderedMap Digest ℕ)
    (slots.flatMap (·.events)).reverse).map Prod.snd).foldl saturatingAdd 0)

def fits (kept : List Slot) (candidate : Slot) (bounds : Bounds) : Bool :=
  kept.length+1 ≤ bounds.suffixes && unionBytes (kept ++ [candidate]) ≤ bounds.bytes

/-- The slots still kept. -/
def keptSlots (held : List Slot) (kept : List Bool) : List Slot :=
  ((held.zip kept).filter (·.2)).map (·.1)

/-- The next suffix to go: of those that may, the last in rank, then in moment. -/
def victim (held : List Slot) (guards : List Guard) (kept : List Bool) (candidate : Slot) :
    Option ℕ :=
  let open_ := (held.zipIdx.zip kept).filter (fun t => t.2 && !guarded guards kept t.1.2 &&
    decide (t.1.1.rank ≠ .rank1) && decide (candidate.rank.number ≤ t.1.1.rank.number))
  -- `max_by_key` returns the last of equal keys.
  (open_.reverse.argmax (fun t => (toLex (t.1.1.rank.number, t.1.1.observed) : ℕ ×ₗ ℕ))).map
    (·.1.2)

/-- The loop of `planEvictions`; each round gives up one suffix. -/
def planLoop (held : List Slot) (guards : List Guard) (candidate : Slot) (bounds : Bounds) :
    ℕ → List Bool → List ℕ → Option (List ℕ)
  | 0, _, _ => none
  | fuel+1, kept, evicted =>
    if fits (keptSlots held kept) candidate bounds then some evicted
    else (victim held guards kept candidate).bind (fun index =>
      planLoop held guards candidate bounds fuel (kept.set index false) (evicted ++ [index]))

def planEvictions (held : List Slot) (guards : List Guard) (replacing : Option ℕ)
    (candidate : Slot) (bounds : Bounds) : Option (List ℕ) :=
  planLoop held guards candidate bounds (held.length+1)
    ((List.range held.length).map (fun index => decide (some index ≠ replacing))) []

structure RetentionSet where
  basis : RetentionBasis
  basisObserved : ℕ
  tiePrefix : Option ValidatedChain
  suffixes : List RetainedSuffix
  nextObserved : ℕ
  bounds : Bounds
  deriving DecidableEq

/-- The candidate's rank against a tie prefix. -/
def rankAgainst (candidate tiePrefix : ValidatedChain) : Except UnrelatedChains ForkRank := do
  let pairing ← pairChains candidate tiePrefix
  pure (match pairing with
    | .diverged divergence => divergence.ranks.1
    | .rightPrefixOfLeft => rankPast candidate tiePrefix.len
    | .identical | .leftPrefixOfRight => .rank3)

def chainBeats (left right : ValidatedChain) : Except UnrelatedChains Bool := do
  let pairing ← pairChains left right
  pure (pairing.divergence?.any (fun d => d.ranks.1.beats d.ranks.2))

/-- The place of the suffix the candidate extends, or `none` at the first
suffix that holds it already. -/
def findExtended (candidate : ValidatedChain) :
    List RetainedSuffix → ℕ → Option ℕ → Except UnrelatedChains (Option (Option ℕ))
  | [], _, found => .ok (some found)
  | held :: rest, index, found => do
    match ← pairChains candidate held.chain with
    | .identical | .leftPrefixOfRight => pure none
    | .rightPrefixOfLeft => findExtended candidate rest (index+1) (some index)
    | .diverged _ => findExtended candidate rest (index+1) found

namespace RetentionSet

def withBounds (basis : RetentionBasis) (bounds : Bounds) : RetentionSet :=
  ⟨basis, 0, none, [], 1, bounds⟩

def new (basis : RetentionBasis) : RetentionSet := withBounds basis .registered

variable (s : RetentionSet)

/-- The basis and every suffix. -/
def chains : List ValidatedChain := s.basis.chain :: s.suffixes.map (·.chain)

def retainedBytes : ℕ := unionBytes (s.suffixes.map (·.slot))

/-- The candidate's rank and fork position against the basis, or `none` where
it lies on the basis. -/
def rankPlacement (candidate : ValidatedChain) : Except RetentionError (Option (ForkRank × ℕ)) := do
  match ← (pairChains candidate s.basis.chain).mapError .unrelated with
  | .identical | .leftPrefixOfRight => pure none
  | .diverged divergence => pure (some (divergence.ranks.1, divergence.forkPosition))
  | .rightPrefixOfLeft =>
    match s.basis, s.tiePrefix with
    | .accepted accepted, some tiePrefix =>
      let rank ← (rankAgainst candidate tiePrefix).mapError .unrelated
      pure (some (rank, saturatingAdd accepted.headSequence 1))
    | .accepted accepted, none => throw (.extendsAccepted accepted.headDigest)
    | .contestedPrefix contested, _ =>
      pure (some (rankPast candidate contested.len, saturatingAdd contested.headSequence 1))

/-- The candidate with the held copy of every leading event it shares with the
chain of the set that shares most with it. -/
def heldCopies (candidate : ValidatedChain) : ValidatedChain :=
  let source := s.suffixes.foldl (fun (source : ValidatedChain) suffix =>
    if source.sharedPrefixLen candidate < suffix.chain.sharedPrefixLen candidate then suffix.chain
    else source) s.basis.chain
  source.extendedBy candidate

/-- Which suffixes an eviction may take. -/
def guards (candidate : ValidatedChain) : Except UnrelatedChains (List Guard) := do
  let tournament ← Tournament.of s.chains
  mapEach (fun (t : RetainedSuffix × ℕ) => do
    let opened ← if tournament.beats 0 t.2 then pure true else chainBeats candidate t.1.chain
    if opened then pure Guard.opened
    else pure (.tied (((List.range' 1 s.suffixes.length).filter
      (fun other => tournament.beats other t.2)).map (· - 1)))) (s.suffixes.zipIdx 1)

/-- The slot a candidate takes: an extension keeps the moment of what it extends. -/
def slotFor (candidate : ValidatedChain) (observed : Option ℕ) (rank : ForkRank)
    (forkPosition : ℕ) (extended : Option ℕ) : Slot where
  rank
  observed := (((extended.bind (s.suffixes[·]?)).map (·.observed)).or observed).getD s.nextObserved
  events := candidate.unitLensFrom forkPosition

/-- A fresh moment is taken only by a candidate that neither extends a suffix
nor brings its own. -/
def nextAfter (observed extended : Option ℕ) : Except RetentionError ℕ :=
  if extended.isNone && observed.isNone then
    require (s.nextObserved+1 ≤ u64Max) .observedExhausted *> pure (s.nextObserved+1)
  else pure s.nextObserved

/-- The set with a candidate entered, `evict` gone and `extended` replaced. -/
def entered (retained : RetainedSuffix) (evict : List ℕ) (extended : Option ℕ)
    (nextObserved : ℕ) : RetentionSet :=
  { s with
    suffixes := ((s.suffixes.zipIdx.filter (fun t => t.2 ∉ evict ∧ extended ≠ some t.2)).map (·.1)) ++
      [retained]
    nextObserved }

def admissionFor (rank : ForkRank) (evict : List ℕ) (extended : Option ℕ) : Admission :=
  let evicted := (s.suffixes.zipIdx.filter (fun t => t.2 ∈ evict)).map (·.1.head)
  let replaced := (s.suffixes.zipIdx.filter (fun t => t.2 ∉ evict ∧ extended = some t.2)).map
    (·.1.head)
  match replaced.getLast? with
  | some replaced => .extended rank replaced evicted
  | none => .retained rank evicted

/-- The guards a placement plans with; the tournament runs only where the
candidate needs an eviction. -/
def guardsFor (candidate : ValidatedChain) (kept : List Slot) (slot : Slot) :
    Except RetentionError (List Guard) :=
  if fits kept slot s.bounds then .ok [] else (s.guards candidate).mapError .unrelated

/-- The second half of `place`, for a candidate no held chain holds. -/
def enter (candidate : ValidatedChain) (observed : Option ℕ) (rank : ForkRank) (forkPosition : ℕ)
    (extended : Option ℕ) : Except RetentionError (Admission × RetentionSet) := do
  let candidate := s.heldCopies candidate
  let slot := s.slotFor candidate observed rank forkPosition extended
  let nextObserved ← s.nextAfter observed extended
  let held := s.suffixes.map (·.slot)
  let kept := (held.zipIdx.filter (fun t => some t.2 ≠ extended)).map (·.1)
  let guards ← s.guardsFor candidate kept slot
  pure ((planEvictions held guards extended slot s.bounds).elim (.refused rank, s) (fun evict =>
    (s.admissionFor rank evict extended,
      s.entered ⟨candidate, forkPosition, slot⟩ evict extended nextObserved)))

/-- `place`: every step that can fail comes before the set is written, so an
error leaves it as it was. -/
def place (candidate : ValidatedChain) (observed : Option ℕ) :
    Except RetentionError (Admission × RetentionSet) := do
  match ← s.rankPlacement candidate with
  | none => pure (.alreadyHeld, s)
  | some (rank, forkPosition) =>
    match ← (findExtended candidate s.suffixes 0 none).mapError .unrelated with
    | none => pure (.alreadyHeld, s)
    | some extended => s.enter candidate observed rank forkPosition extended

/-- The tie prefix as far as a held chain carries it, or none where no suffix reads it. -/
def settled (tiePrefix : ValidatedChain) : Except UnrelatedChains (Option ValidatedChain) :=
  match s.basis with
  | .contestedPrefix _ => .ok none
  | .accepted accepted => do
    let carried := (s.chains.map (·.sharedPrefixLen tiePrefix)).max?.getD 0
    if carried = tiePrefix.len then pure (some tiePrefix)
    else do
      let pairings ← mapEach (fun suffix : RetainedSuffix => pairChains suffix.chain accepted)
        s.suffixes
      if pairings.any (· = .rightPrefixOfLeft) then
        pure (if carried = 0 then none else tiePrefix.prefixThrough (carried-1))
      else pure none

def settleTiePrefix : Except UnrelatedChains RetentionSet :=
  match s.tiePrefix with
  | none => .ok { s with tiePrefix := none }
  | some tiePrefix => do
    let settled ← s.settled tiePrefix
    pure { s with tiePrefix := settled }

/-- `admit`, with the set it leaves. -/
def admit_ (candidate : ValidatedChain) : Except RetentionError Admission × RetentionSet :=
  match s.place candidate none with
  | .error error => (.error error, s)
  | .ok (admission, placed) =>
    match placed.settleTiePrefix with
    | .error error => (.error (.unrelated error), placed)
    | .ok settled => (.ok admission, settled)

/-- Places each chain in turn, with the report so far. -/
def placeAll : RetentionSet → Rerank → List (Option ℕ × ValidatedChain) →
    Except RetentionError (Rerank × RetentionSet)
  | s, report, [] => .ok (report, s)
  | s, report, (observed, chain) :: rest => do
    let (admission, placed) ← s.place chain observed
    placeAll placed (report.count chain.headDigest admission) rest

/-- The held chains with their moments, earliest first. -/
def entries : List (ℕ × ValidatedChain) :=
  (s.suffixes.map (fun suffix => (suffix.observed, suffix.chain)) ++
    [(s.basisObserved, s.basis.chain)]).insertionSort (fun a b => a.1 ≤ b.1)

/-- The earliest moment of an entry that lies on the new basis. -/
def onBasis (basis : ValidatedChain) (entries : List (ℕ × ValidatedChain)) :
    Except UnrelatedChains (Option ℕ) := do
  let moments ← mapEach (fun entry : ℕ × ValidatedChain => do
    let pairing ← pairChains entry.2 basis
    pure (if pairing = .identical ∨ pairing = .leftPrefixOfRight then some entry.1 else none)) entries
  pure (moments.reduceOption.foldl (fun earliest moment =>
    some (earliest.elim moment (min · moment))) none)

/-- `move_to`: every held chain re-placed against a new basis and tie prefix. -/
def moveTo (basis : RetentionBasis) (tiePrefix : Option ValidatedChain) :
    Except RetentionError (Rerank × RetentionSet) := do
  let basis := basis.mapChain s.heldCopies
  let tiePrefix := tiePrefix.map s.heldCopies
  let onBasis ← (onBasis basis.chain s.entries).mapError .unrelated
  let (basisObserved, nextObserved) ← onBasis.elim
    (require (s.nextObserved+1 ≤ u64Max) RetentionError.observedExhausted *>
      pure (s.nextObserved, s.nextObserved+1))
    (fun earliest => pure (earliest, s.nextObserved))
  placeAll ⟨basis, basisObserved, tiePrefix, [], nextObserved, s.bounds⟩ .default
    (s.entries.map (fun entry => (some entry.1, entry.2)))

/-- `rerank`, with the set it leaves. -/
def rerank (basis : RetentionBasis) : Except RetentionError Rerank × RetentionSet :=
  match s.basis, basis with
  | .accepted accepted, .contestedPrefix _ =>
    (.error (.contestedAfterAccepted accepted.headDigest), s)
  | _, basis =>
    match s.moveTo basis none with
    | .error error => (.error error, s)
    | .ok (report, moved) => (.ok report, moved)

/-- An accepted basis stays beside the tied prefix; a contested one gives way to it. -/
def moveToTie (tiePrefix : ValidatedChain) : Except RetentionError (Rerank × RetentionSet) :=
  match s.basis with
  | .accepted accepted => s.moveTo (.accepted accepted) (some tiePrefix)
  | .contestedPrefix _ => s.moveTo (.contestedPrefix tiePrefix) none

/-- `after_contest`: the set moved to the tied prefix, and the candidates placed in it. -/
def afterContest (tiePrefix : ValidatedChain) (candidates : List ValidatedChain) :
    Except RetentionError (Rerank × RetentionSet) := do
  let (report, moved) ← s.moveToTie tiePrefix
  let (report, placed) ← placeAll moved report (candidates.map (fun chain => (none, chain)))
  let settled ← placed.settleTiePrefix.mapError .unrelated
  pure (report, settled)

def confirmAccepted : RetentionSet := { s with tiePrefix := none }

/-- The suffix that wins over every held chain, off the basis. -/
def winningSuffix : Except ResolveError (Option Digest) := do
  match ← resolveSet s.chains with
  | .winner head =>
    pure (((s.chains.find? (fun chain => chain.headDigest = head)).filter (fun winner =>
      !winner.events.any (fun event => event.digest = s.basis.chain.headDigest))).map (fun _ => head))
  | .tie _ _ _ _ | .empty => pure none

/-- The suffix the accepted chain gives way to: the winner, else the unbeaten
chain with the earliest moment, where it is not the basis. -/
def displacingSuffix : Except ResolveError (Option RetainedSuffix) := do
  let moments := s.basisObserved :: s.suffixes.map (·.observed)
  let tournament ← (Tournament.of s.chains).mapError .unrelated
  let index ← match ← tournament.decide with
    | .winner winner => pure winner
    | .tie undefeated _ =>
      okOr (undefeated.argmin (fun index => (moments[index]?).getD u64Max)) .noResolution
  pure (if index = 0 then none else s.suffixes[index-1]?)

end RetentionSet

end ScpCore.Kel
