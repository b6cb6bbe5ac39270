import ScpCore.OrderedMap
import ScpCore.KelUnit
import ScpCore.Saturating

/-! A validated chain: its events with the state standing after each, and the
maps that record which keys and commitments were used where. -/

namespace ScpCore.Kel

/-- What the snapshot checks resolve in a snapshot they accept. -/
structure ResolvedKeys where
  active : Key
  rootCount : ℕ
  deriving DecidableEq

/-- One event of a valid chain and the state standing after it. -/
structure ChainEvent where
  digest : Digest
  sequence : ℕ
  kind : EventKind
  revealRootCosigned : Bool
  standingRoot : Option StandingRootDeclaration
  unit : Bytes
  root : InstalledRootSet
  commitment : StandingCommitment
  snapshot : KeyStateSnapshot
  resolved : ResolvedKeys
  deriving DecidableEq

structure NamedKey where
  index : UInt8
  key : Key
  deriving DecidableEq

structure SignerGroupSpec where
  role : SignerGroupRole
  threshold : ℕ
  keySet : List NamedKey
  indices : List UInt8
  deriving DecidableEq

structure ChangeEffect where
  kind : EventKind
  sequence : ℕ
  installedKeys : List KeyEntry
  droppedKeys : List KeyEntry
  continuation : Option Continuation
  rootBefore : Option InstalledRootSet
  rootAfter : InstalledRootSet
  witnessesBefore : Option (List Identifier)
  witnessesAfter : List Identifier
  deriving DecidableEq

/-- A unit that passed every step it runs, with what it adds to the chain. -/
structure Accepted where
  event : ChainEvent
  installed : List (Key × KeyRole)
  fixed : List Digest
  revealed : List Key
  preimage : Bytes
  signers : List SignerGroupSpec
  effect : ChangeEffect
  deriving DecidableEq

structure ValidatedChain where
  identifier : Identifier
  inception : ChainEvent
  later : List ChainEvent
  installed : OrderedMap Key (KeyRole × ℕ)
  installedCommitments : OrderedMap Digest ℕ
  fixed : OrderedMap Digest ℕ
  revealed : OrderedMap Key ℕ
  revealedCommitments : OrderedMap Digest ℕ
  deriving DecidableEq

namespace ValidatedChain

section Record
variable (C : Crypto)

/-- Enters what an accepted event installs, fixes and reveals, each key and
commitment at the position that first did. -/
def record (c : ValidatedChain) (accepted : Accepted) : ValidatedChain :=
  let position := accepted.event.sequence
  { c with
    installed := c.installed.orInsertAll
      (accepted.installed.map (fun (key, role) => (key, role, position)))
    installedCommitments := c.installedCommitments.orInsertAll
      (accepted.installed.map (fun (key, _) => (prerotationCommitment C key, position)))
    fixed := c.fixed.orInsertAll (accepted.fixed.map (fun commitment => (commitment, position)))
    revealed := c.revealed.orInsertAll (accepted.revealed.map (fun key => (key, position)))
    revealedCommitments := c.revealedCommitments.orInsertAll
      (accepted.revealed.map (fun key => (prerotationCommitment C key, position))) }

def fromInception (identifier : Identifier) (accepted : Accepted) : ValidatedChain :=
  record C ⟨identifier, accepted.event, [], [], [], [], [], []⟩ accepted

def push (c : ValidatedChain) (accepted : Accepted) : ValidatedChain :=
  record C { c with later := c.later ++ [accepted.event] } accepted

end Record

variable (c : ValidatedChain)

/-- Every event, from the inception to the head. -/
def events : List ChainEvent := c.inception :: c.later

def head : ChainEvent := c.later.getLast?.getD c.inception

def headDigest : Digest := c.head.digest

def headSequence : ℕ := c.head.sequence

def eventDigests : List Digest := c.events.map (·.digest)

def digestAt (position : ℕ) : Option Digest :=
  if position = 0 then some c.inception.digest else (c.later[position-1]?).map (·.digest)

def len : ℕ := c.later.length+1

def nextPosition : ℕ := min (c.headSequence+1) u64Max

/-- The event with that digest, whose state stands at it. -/
def stateAt (digest : Digest) : Option ChainEvent := c.events.find? (·.digest = digest)

/-- Every reveal-authorized event at sequences 1 through `position` is root-cosigned. -/
def revealsRootCosignedThrough (position : ℕ) : Bool :=
  (((c.events.drop 1).takeWhile (·.sequence ≤ position)).filter
    (·.kind.isRevealAuthorized)).all (·.revealRootCosigned)

/-- The count of leading events two chains share by digest. -/
def sharedPrefixLen (other : ValidatedChain) : ℕ :=
  ((c.events.zip other.events).takeWhile (fun t => t.1.digest = t.2.digest)).length

/-- Replaces the leading events that two event lists share by the first list's copies. -/
def overlay : List ChainEvent → List ChainEvent → List ChainEvent
  | mine :: ms, theirs :: ts =>
    if theirs.digest = mine.digest then mine :: overlay ms ts else theirs :: ts
  | _, ts => ts

/-- `longer` with this chain's copy of every leading event the two share. -/
def extendedBy (longer : ValidatedChain) : ValidatedChain :=
  if longer.inception.digest = c.inception.digest then
    { longer with inception := c.inception, later := overlay c.later longer.later }
  else longer

/-- Each event at and past `position`, with the length of the unit that carried it. -/
def unitLensFrom (position : ℕ) : List (Digest × ℕ) :=
  (c.events.filter (position ≤ ·.sequence)).map (fun e => (e.digest, e.unit.length))

def installedRole (key : Key) : Option KeyRole := (c.installed.get key).map Prod.fst

def wasRevealed (key : Key) : Bool := c.revealed.contains key

def wasFixed (commitment : Digest) : Bool := c.fixed.contains commitment

def installedCommitment (commitment : Digest) : Bool := c.installedCommitments.contains commitment

def revealedCommitment (commitment : Digest) : Bool := c.revealedCommitments.contains commitment

/-- `prefix`: the chain through `position`, inclusive, or `none` past the head. -/
def prefixThrough (position : ℕ) : Option ValidatedChain :=
  if c.headSequence < position then none
  else some {
    identifier := c.identifier
    inception := c.inception
    later := c.later.filter (·.sequence ≤ position)
    installed := c.installed.filter (·.2.2 ≤ position)
    installedCommitments := c.installedCommitments.filter (·.2 ≤ position)
    fixed := c.fixed.filter (·.2 ≤ position)
    revealed := c.revealed.filter (·.2 ≤ position)
    revealedCommitments := c.revealedCommitments.filter (·.2 ≤ position) }

end ValidatedChain

end ScpCore.Kel
