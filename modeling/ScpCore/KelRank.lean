import ScpCore.ForkOrder
import ScpCore.KelChain

/-! Fork rank and set resolution: the rank of a divergent suffix, the comparison
of two chains of one identifier and the resolution of a set of them. Every
comparison reads event digests and never bytes. -/

namespace ScpCore.Kel

/-- The rank of a divergent suffix against the shared prefix. A lower number wins. -/
inductive ForkRank
  | rank1 | rank2 | rank3
  deriving DecidableEq

namespace ForkRank

def number : ForkRank → ℕ
  | rank1 => 1
  | rank2 => 2
  | rank3 => 3

theorem number_injective : Function.Injective number := by
  intro a b h
  cases a <;> cases b <;> simp_all [number]

instance : LinearOrder ForkRank := LinearOrder.lift' number number_injective

instance : OrderTop ForkRank where
  top := rank3
  le_top a := by cases a <;> decide

def beats (a b : ForkRank) : Bool := a.number < b.number

@[simp] theorem beats_iff (a b : ForkRank) : a.beats b = true ↔ a < b := by
  simp only [beats, decide_eq_true_eq]
  rfl

theorem top_eq : (⊤ : ForkRank) = rank3 := rfl

end ForkRank

inductive TieClass
  | rank1Terminal | rank2Terminal | rank3Pending
  deriving DecidableEq

def TieClass.of : ForkRank → TieClass
  | .rank1 => .rank1Terminal
  | .rank2 => .rank2Terminal
  | .rank3 => .rank3Pending

structure UnrelatedChains where
  left : Identifier
  right : Identifier
  deriving DecidableEq

def UnrelatedChains.of (left right : ValidatedChain) : UnrelatedChains :=
  ⟨left.identifier, right.identifier⟩

/-- Where two chains diverge, and each suffix's rank in argument order. -/
structure Divergence where
  sharedPrefixHead : Digest
  forkPosition : ℕ
  ranks : ForkRank × ForkRank
  deriving DecidableEq

inductive ChainPairing
  | identical
  | leftPrefixOfRight
  | rightPrefixOfLeft
  | diverged (divergence : Divergence)
  deriving DecidableEq

inductive SetResolution
  | winner (head : Digest)
  | tie (tieClass : TieClass) (heads : List Digest) (sharedPrefixHead : Digest) (forkPosition : ℕ)
  | empty
  deriving DecidableEq

inductive ResolveError
  | unrelated (error : UnrelatedChains)
  | noResolution
  deriving DecidableEq

/-- The rank of the events past the first `sharedPrefixLen`, a non-empty prefix. -/
def rankPast (chain : ValidatedChain) (sharedPrefixLen : ℕ) : ForkRank :=
  match (chain.events.drop sharedPrefixLen).find? (·.kind.isRevealAuthorized) with
  | some event => if event.revealRootCosigned then .rank1 else .rank2
  | none => .rank3

def rankSuffix (chain : ValidatedChain) (sharedPrefixLen : ℕ) : Option ForkRank :=
  if sharedPrefixLen = 0 then none else some (rankPast chain sharedPrefixLen)

def pairChains (left right : ValidatedChain) : Except UnrelatedChains ChainPairing :=
  let shared := left.sharedPrefixLen right
  let unrelated := UnrelatedChains.of left right
  match (if shared = 0 then none else left.events[shared-1]?) with
  | none => .error unrelated
  | some head =>
    if shared = left.len ∧ shared = right.len then .ok .identical
    else if shared = left.len then .ok .leftPrefixOfRight
    else if shared = right.len then .ok .rightPrefixOfLeft
    else
      match rankSuffix left shared, rankSuffix right shared with
      | some leftRank, some rightRank =>
        .ok (.diverged ⟨head.digest, saturatingAdd head.sequence 1, leftRank, rightRank⟩)
      | _, _ => .error unrelated

/-- One chain entered among those kept so far: dropped where it is one of them
or a prefix of one, put in the place of one it extends, else added. -/
def reduceOnto (chain : ValidatedChain) :
    List ValidatedChain → Except UnrelatedChains (List ValidatedChain)
  | [] => .ok [chain]
  | slot :: kept => do
    match ← pairChains chain slot with
    | .identical | .leftPrefixOfRight => pure (slot :: kept)
    | .rightPrefixOfLeft => pure (chain :: kept)
    | .diverged _ =>
      let kept ← reduceOnto chain kept
      pure (slot :: kept)

/-- The chains without duplicates and proper prefixes of another. -/
def reduce (chains : List ValidatedChain) : Except UnrelatedChains (List ValidatedChain) :=
  chains.foldlM (fun kept chain => reduceOnto chain kept) []

/-- Every pairwise comparison over a list of chains, by index into it. -/
structure Tournament where
  divergences : List (List (Option Divergence))
  deriving DecidableEq

inductive Decision
  | winner (index : ℕ)
  | tie (undefeated : List ℕ) (strictest : Divergence)
  deriving DecidableEq

/-- The divergence of a pairing, where the pair diverges. -/
def ChainPairing.divergence? : ChainPairing → Option Divergence
  | .diverged divergence => some divergence
  | .identical | .leftPrefixOfRight | .rightPrefixOfLeft => none

namespace Tournament

/-- The tournament over `chains`. -/
def of (chains : List ValidatedChain) : Except UnrelatedChains Tournament := do
  let divergences ← mapEach (fun left => mapEach (fun right => do
    let pairing ← pairChains left right
    pure pairing.divergence?) chains) chains
  pure ⟨divergences⟩

variable (t : Tournament)

def len : ℕ := t.divergences.length

def divergence (i j : ℕ) : Option Divergence := ((t.divergences[i]?).bind (·[j]?)).join

def beats (i j : ℕ) : Bool := (t.divergence i j).any (fun d => d.ranks.1.beats d.ranks.2)

/-- What the strictest pair is lowest in: rank number, fork position, prefix head. -/
def strictness (d : Divergence) : ℕ ×ₗ ℕ ×ₗ ℕ :=
  toLex (d.ranks.1.number, toLex (d.forkPosition, d.sharedPrefixHead.toNat))

/-- The strictest pair among `among`, every pair of which ties. -/
def strictest (among : List ℕ) : Option Divergence :=
  (((among.flatMap (fun i => among.map (fun j => (i, j)))).filter (fun p => p.1 < p.2)).filterMap
    (fun p => t.divergence p.1 p.2)).argmin strictness

/-- The chains no other chain beats, in index order. -/
def undefeated : List ℕ :=
  (List.range t.len).filter (fun i => (List.range t.len).all (fun j => !t.beats j i))

def decide : Except ResolveError Decision :=
  match t.undefeated with
  | [winner] =>
    if (List.range t.len).all (fun j => j = winner || t.beats winner j) then .ok (.winner winner)
    else .error .noResolution
  | i :: j :: rest =>
    match t.strictest (i :: j :: rest) with
    | some strictest => .ok (.tie (i :: j :: rest) strictest)
    | none => .error .noResolution
  | [] => .error .noResolution

end Tournament

/-- A decision over `kept` with the heads in the place of the indices. -/
def Decision.resolution (kept : List ValidatedChain) : Decision → Except ResolveError SetResolution
  | .winner i => do
    let head ← okOr ((kept[i]?).map (·.headDigest)) .noResolution
    pure (.winner head)
  | .tie undefeated strictest => do
    let heads ← mapEach (fun i => okOr ((kept[i]?).map (·.headDigest)) .noResolution) undefeated
    pure (.tie (.of strictest.ranks.1) (heads.insertionSort (· ≤ ·)) strictest.sharedPrefixHead
      strictest.forkPosition)

/-- What the comparisons make of `chains`, read as a set. -/
def resolveSet (chains : List ValidatedChain) : Except ResolveError SetResolution := do
  let kept ← (reduce chains).mapError .unrelated
  if kept.isEmpty then pure .empty
  else do
    let tournament ← (Tournament.of kept).mapError .unrelated
    let decision ← tournament.decide
    decision.resolution kept

end ScpCore.Kel
