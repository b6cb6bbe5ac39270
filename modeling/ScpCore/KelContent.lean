import ScpCore.KelChain

/-! Step 8 of the check order past the inception and the content half of step
3 at it, over a decoded preimage and the chain at its predecessor. -/

namespace ScpCore.Kel

inductive ThresholdField
  | root | next
  deriving DecidableEq

inductive DistinctList
  | rootSet | commitments | witnesses
  deriving DecidableEq

inductive ContentDefect
  | body (error : BodyError)
  | afterAbandonment
  | kindAtPosition (kind : EventKind)
  | identifierFieldMismatch
  | sequenceNotNext (expected found : ℕ)
  | sentinelHeld (field : ℕ)
  | fieldAbsent (field : ℕ)
  | inceptionFixesNoCommitment
  | continuationMissing
  | recoveryAbandons
  | repeatedIndex (role : SignerGroupRole) (index : UInt8)
  | indexOutOfRange (role : SignerGroupRole) (index : UInt8)
  | indexCountBelowThreshold (role : SignerGroupRole) (named threshold : ℕ)
  | revealCountMismatch (indices keys : ℕ)
  | revealMismatch (index : UInt8)
  | thresholdOutOfRange (field : ThresholdField) (threshold size : ℕ)
  | notDistinct (list : DistinctList)
  | installedRootMismatch
  | rootSetTooLarge (size : ℕ)
  | keyStateRootChanged
  | invalidPoint (key : Key)
  | keyListedTwice (key : Key)
  | twoCurrentInRole (role : KeyRole)
  | serviceRoleNotActive (role : KeyRole)
  | serviceRoleUnresolved
  | witnessIntervalOutOfRange (interval : ℕ)
  | witnessNamesSubject
  | nonzeroDelegator
  | snapshotUnchanged
  | keyNotCurrentNorDropped (key : Key)
  | silentDrop (key : Key)
  | supersededWithoutSuccessor (key : Key)
  | retiredWithSuccessor (key : Key)
  | roleChanged (key : Key) (installed listed : KeyRole)
  | keyInstalledTwice (key : Key)
  | keptRootMember (key : Key)
  | installedKeyRevealed (key : Key)
  | installedKeyCommitted (key : Key)
  | commitmentToInstalledKey (commitment : Digest)
  | commitmentToRevealedKey (commitment : Digest)
  | nextThresholdBelowRoot (nextThreshold rootThreshold : ℕ)
  | compromisedFromAfterSequence (key : Key) (from_ sequence : ℕ)
  | snapshotOrder (key : Key)
  deriving DecidableEq

/-- Where the event sits: the inception bound to its identifier, or the next
position of a valid chain. -/
inductive Position
  | inception (identifier : Identifier)
  | next (chain : ValidatedChain)

def Position.identifier : Position → Identifier
  | .inception identifier => identifier
  | .next chain => chain.identifier

def Position.chain? : Position → Option ValidatedChain
  | .inception _ => none
  | .next chain => some chain

/-- The key set one signer group verifies against, by index, with its threshold. -/
structure KeySet where
  keys : OrderedMap UInt8 Key
  threshold : ℕ
  deriving DecidableEq

/-- What an event that passed step 8 adds to the chain. -/
structure Applied where
  root : InstalledRootSet
  commitment : StandingCommitment
  snapshot : KeyStateSnapshot
  resolved : ResolvedKeys
  installed : List (Key × KeyRole)
  fixed : List Digest
  revealed : List Key
  keySets : List KeySet
  signers : List SignerGroupSpec
  effect : ChangeEffect

/-- Whether `count` reaches `threshold`. -/
def reaches (count threshold : ℕ) : Bool := threshold ≤ count

def rootKeySet (root : InstalledRootSet) : KeySet where
  keys := root.members.zipIdx.filterMap
    (fun (key, index) => if index < 256 then some (UInt8.ofNat index, key) else none)
  threshold := root.threshold.toNat

def StandingCommitment.isAbandoned : StandingCommitment → Bool
  | .fixed _ => false
  | .abandoned _ _ => true

section Content
variable (C : Crypto)

/-- At each index the group names, the key at the first position naming it
where that key's commitment is the standing list's member at the index. -/
def revealKeySet (standing : StandingCommitment) (group : HeaderGroup) (revealedKeys : List Key) :
    Option KeySet :=
  match standing with
  | .abandoned _ _ => none
  | .fixed commitment =>
    let first := (group.signers.zip revealedKeys).foldl (fun (m : OrderedMap UInt8 (Option Key)) t =>
      m.orInsert t.1.index
        ((commitment.commitments[t.1.index.toNat]?.filter
          (fun entry => entry.commitment = prerotationCommitment C t.2)).map (fun _ => t.2))) []
    some ⟨first.filterMap (fun (index, key) => key.map (fun key => (index, key))),
      commitment.nextThreshold.toNat⟩

def checkLink (chain : ValidatedChain) (preimage : EventPreimage) : Except ContentDefect Unit := do
  require (!chain.head.commitment.isAbandoned) .afterAbandonment
  require (preimage.kind ≠ .inception) (.kindAtPosition preimage.kind)
  require (preimage.identifier = chain.identifier) .identifierFieldMismatch
  require (preimage.sequence.toNat = chain.nextPosition)
    (.sequenceNotNext chain.nextPosition preimage.sequence.toNat)

/-- A field the kind carries in substance is `held`, and one it carries as a
sentinel is not. -/
def checkField (field : ℕ) (carried held : Bool) : Except ContentDefect Unit :=
  match carried, held with
  | false, true => .error (.sentinelHeld field)
  | true, false => .error (.fieldAbsent field)
  | _, _ => .ok ()

def checkSentinels (preimage : EventPreimage) : Except ContentDefect Unit := do
  let kind := preimage.kind
  require (kind = .rootRecovery || preimage.standingRoot.isNone) (.sentinelHeld 5)
  checkField 8 kind.isRevealAuthorized (!preimage.revealedKeys.isEmpty)
  checkField 9 (kind = .inception || kind = .rootRecovery) preimage.installedRootSet.isSome
  checkField 10 (kind ≠ .commitmentRollover) preimage.keyState.isSome
  require (kind = .keyState || preimage.seals.isEmpty) (.sentinelHeld 11)

def checkPoints (preimage : EventPreimage) : Except ContentDefect Unit :=
  let installed := preimage.installedRootSet.elim [] (·.members)
  let listed := preimage.keyState.elim [] (fun s => s.keys.map (·.key))
  checkEach (fun key => require (C.validPoint key) (.invalidPoint key))
    (preimage.revealedKeys ++ installed ++ listed)

def checkContinuationPresent (preimage : EventPreimage) :
    Except ContentDefect (Option Continuation) :=
  match preimage.kind, preimage.continuation with
  | .keyState, none => .ok none
  | .keyState, some _ => .error (.sentinelHeld 12)
  | .inception, some .abandons | .inception, none => .error .inceptionFixesNoCommitment
  | .commitmentRollover, none | .rootRecovery, none => .error .continuationMissing
  | .rootRecovery, some .abandons => .error .recoveryAbandons
  | .inception, some (.fixesCommitment commitment) => .ok (some (.fixesCommitment commitment))
  | .commitmentRollover, some continuation => .ok (some continuation)
  | .rootRecovery, some (.fixesCommitment commitment) => .ok (some (.fixesCommitment commitment))

def checkThreshold (field : ThresholdField) (threshold size : ℕ) : Except ContentDefect Unit :=
  require (1 ≤ threshold && threshold ≤ size) (.thresholdOutOfRange field threshold size)

def checkInstalledRoot (preimage : EventPreimage) :
    Except ContentDefect (Option InstalledRootSet) :=
  match preimage.installedRootSet with
  | none => .ok none
  | some root => do
    require root.members.Nodup (.notDistinct .rootSet)
    checkThreshold .root root.threshold.toNat root.members.length
    pure (some root)

/-- As many revealed keys as indices, and each key's commitment the standing
list's member at its index. -/
def checkReveal (group : HeaderGroup) (commitment : FixedCommitment) (revealedKeys : List Key) :
    Except ContentDefect Unit := do
  require (group.signers.length = revealedKeys.length)
    (.revealCountMismatch group.signers.length revealedKeys.length)
  checkEach (fun (signer, key) =>
    require ((commitment.commitments[signer.index.toNat]?).any
        (fun entry => entry.commitment = prerotationCommitment C key))
      (.revealMismatch signer.index)) (group.signers.zip revealedKeys)

/-- The key set the kind and position assign to a group. -/
def groupKeySet (position : Position) (preimage : EventPreimage)
    (installedRoot : Option InstalledRootSet) (group : HeaderGroup) : Except ContentDefect KeySet :=
  match group.role, position with
  | .reveal, .next chain =>
    match chain.head.commitment with
    | .fixed commitment => do
      checkReveal C group commitment preimage.revealedKeys
      okOr (revealKeySet C chain.head.commitment group preimage.revealedKeys) .afterAbandonment
    | .abandoned _ _ => .error .afterAbandonment
  | .root, .next chain | .standingRoot, .next chain => .ok (rootKeySet chain.head.root)
  | .root, .inception _ | .replacementRoot, _ => do
    let root ← okOr installedRoot (.fieldAbsent 9)
    pure (rootKeySet root)
  | .reveal, .inception _ | .standingRoot, .inception _ => .error (.kindAtPosition preimage.kind)

/-- Each index once and in the key set; returns the indices seen. -/
def checkIndices (role : SignerGroupRole) (keys : KeySet) :
    List UInt8 → List NamedSigner → Except ContentDefect (List UInt8)
  | seen, [] => .ok seen
  | seen, signer :: signers => do
    require (signer.index ∉ seen) (.repeatedIndex role signer.index)
    require (keys.keys.contains signer.index) (.indexOutOfRange role signer.index)
    checkIndices role keys (signer.index :: seen) signers

def checkGroups (position : Position) (header : EventHeader) (preimage : EventPreimage)
    (installedRoot : Option InstalledRootSet) : Except ContentDefect (List KeySet) :=
  mapEach (fun group => do
    let keys ← groupKeySet C position preimage installedRoot group
    let seen ← checkIndices group.role keys [] group.signers
    require (reaches seen.length keys.threshold)
      (.indexCountBelowThreshold group.role seen.length keys.threshold)
    pure keys) header.groups

/-- Where an entry of the key list sits relative to the predecessor's. -/
inductive Segment
  | kept (position : ℕ)
  | added
  | dropped (position : ℕ)
  deriving DecidableEq

/-- The derived order: kept below added below dropped, by position within. -/
def Segment.lt : Segment → Segment → Bool
  | .kept i, .kept j => i < j
  | .kept _, _ => true
  | .added, .dropped _ => true
  | .dropped i, .dropped j => i < j
  | _, _ => false

structure KeyList where
  installed : List (Key × KeyRole)
  dropped : List KeyEntry

def inceptionKeyList (snapshot : KeyStateSnapshot) : Except ContentDefect KeyList := do
  checkEach (fun entry => require (entry.condition = .current) (.keyNotCurrentNorDropped entry.key))
    snapshot.keys
  pure ⟨snapshot.keys.map (fun entry => (entry.key, entry.role)), []⟩

/-- The positions of the keys `Current` in a snapshot. -/
def currentPositions (snapshot : KeyStateSnapshot) : OrderedMap Key ℕ :=
  -- A later entry of one key replaces an earlier one, so the last is entered first.
  OrderedMap.orInsertAll []
    ((snapshot.keys.zipIdx.filter (fun t => t.1.condition = .current)).reverse.map
      (fun t => (t.1.key, t.2)))

def entrySegment (entry : KeyEntry) (atPredecessor : Option ℕ) : Except ContentDefect Segment :=
  match entry.condition, atPredecessor with
  | .current, some position => .ok (.kept position)
  | .current, none => .ok .added
  | _, some position => .ok (.dropped position)
  | _, none => .error (.keyNotCurrentNorDropped entry.key)

def Segment.isKept : Segment → Bool
  | .kept _ => true
  | _ => false

def classifyEntry (chain : ValidatedChain) (kind : EventKind) (previousCurrent : OrderedMap Key ℕ)
    (entry : KeyEntry) : Except ContentDefect (Segment × KeyEntry) := do
  (chain.installedRole entry.key).elim (.ok ())
    (fun role => require (role = entry.role) (.roleChanged entry.key role entry.role))
  let segment ← entrySegment entry (previousCurrent.get entry.key)
  require (!(kind = .rootRecovery && entry.role = .rootMember && segment.isKept))
    (.keptRootMember entry.key)
  require (!(segment = .added && (chain.installedRole entry.key).isSome))
    (.keyInstalledTwice entry.key)
  pure (segment, entry)

def checkDropped (installed : List (Key × KeyRole)) (entry : KeyEntry) :
    Except ContentDefect Unit :=
  let successor := installed.any (fun t => t.2 = entry.role)
  match entry.condition with
  | .superseded => require successor (.supersededWithoutSuccessor entry.key)
  | .retired => require (!successor) (.retiredWithSuccessor entry.key)
  | .current | .compromised => .ok ()

/-- The segment sequence never steps back. -/
def checkOrder : List (Segment × KeyEntry) → Except ContentDefect Unit
  | before :: after :: rest => do
    require ((before.1 = .added && after.1 = .added) || before.1.lt after.1)
      (.snapshotOrder after.2.key)
    checkOrder (after :: rest)
  | _ => .ok ()

def successorKeyList (chain : ValidatedChain) (kind : EventKind) (snapshot : KeyStateSnapshot) :
    Except ContentDefect KeyList := do
  let previous := chain.head.snapshot
  require (previous ≠ snapshot) .snapshotUnchanged
  let previousCurrent := currentPositions previous
  let segments ← mapEach (classifyEntry chain kind previousCurrent) snapshot.keys
  let installed := segments.filterMap (fun (segment, entry) =>
    if segment = .added then some (entry.key, entry.role) else none)
  let dropped := segments.filterMap (fun (segment, entry) => match segment with
    | .dropped _ => some entry
    | _ => none)
  checkEach (fun t => require (snapshot.keys.any (·.key = t.1)) (.silentDrop t.1)) previousCurrent
  checkEach (checkDropped installed) dropped
  checkOrder segments
  pure ⟨installed, dropped⟩

def positionKeyList (position : Position) (kind : EventKind) (snapshot : KeyStateSnapshot) :
    Except ContentDefect KeyList :=
  match position with
  | .inception _ => inceptionKeyList snapshot
  | .next chain => successorKeyList chain kind snapshot

structure AppliedSnapshot where
  snapshot : KeyStateSnapshot
  installed : List (Key × KeyRole)
  dropped : List KeyEntry
  resolved : ResolvedKeys

def checkSnapshotRoot (position : Position) (installedRoot : Option InstalledRootSet)
    (root : InstalledRootSet) : Except ContentDefect Unit :=
  match installedRoot, position with
  | some installed, _ => require (installed = root) .installedRootMismatch
  | none, .next chain => require (chain.head.root = root) .keyStateRootChanged
  | none, .inception _ => .ok ()

def checkSnapshotKeys (snapshot : KeyStateSnapshot) : Except ContentDefect Unit := do
  checkDistinct (fun entry => some entry.key) (fun entry => .keyListedTwice entry.key) []
    snapshot.keys
  checkDistinct
    (fun entry => if entry.condition = .current ∧ entry.role ≠ .rootMember then some entry.role
      else none)
    (fun entry => .twoCurrentInRole entry.role) [] snapshot.keys

def checkSnapshotFields (position : Position) (sequence : ℕ) (snapshot : KeyStateSnapshot) :
    Except ContentDefect Unit := do
  require (snapshot.serviceKeyRole = .active) (.serviceRoleNotActive snapshot.serviceKeyRole)
  let interval := snapshot.witnessingInterval.toNat
  require (minWitnessingInterval ≤ interval && interval ≤ maxWitnessingInterval)
    (.witnessIntervalOutOfRange interval)
  require snapshot.witnesses.Nodup (.notDistinct .witnesses)
  require (position.identifier ∉ snapshot.witnesses) .witnessNamesSubject
  require (snapshot.delegator = identifierZero) .nonzeroDelegator
  checkEach (fun entry =>
    require (entry.condition ≠ .compromised || entry.compromisedFrom.toNat ≤ sequence)
      (.compromisedFromAfterSequence entry.key entry.compromisedFrom.toNat sequence)) snapshot.keys

/-- Field 10: the snapshot's own indicators and its key list against the predecessor's. -/
def checkSnapshot (position : Position) (preimage : EventPreimage)
    (installedRoot : Option InstalledRootSet) : Except ContentDefect (Option AppliedSnapshot) :=
  match preimage.keyState with
  | none => .ok none
  | some snapshot => do
    let root := snapshot.rootSet
    require (root.members.length ≤ maxRootSetSize) (.rootSetTooLarge root.members.length)
    checkSnapshotRoot position installedRoot root
    checkSnapshotKeys snapshot
    checkSnapshotFields position preimage.sequence.toNat snapshot
    let keyList ← positionKeyList position preimage.kind snapshot
    -- The service role resolves after the key list.
    let active ← okOr (snapshot.keys.find? (fun entry =>
      entry.condition = .current && entry.role = snapshot.serviceKeyRole)) .serviceRoleUnresolved
    pure (some ⟨snapshot, keyList.installed, keyList.dropped, ⟨active.key, root.members.length⟩⟩)

def checkNextCommitment (position : Position) (preimage : EventPreimage)
    (continuation : Option Continuation) (rootAfter : InstalledRootSet) (digest : Digest) :
    Except ContentDefect (Option StandingCommitment) :=
  match continuation with
  | none => .ok none
  | some .abandons =>
    match position with
    | .inception _ => .error .inceptionFixesNoCommitment
    | .next _ => .ok (some (.abandoned preimage.sequence digest))
  | some (.fixesCommitment commitment) => do
    require (commitment.commitments.map (·.commitment)).Nodup (.notDistinct .commitments)
    checkThreshold .next commitment.nextThreshold.toNat commitment.commitments.length
    require (rootAfter.threshold.toNat ≤ commitment.nextThreshold.toNat)
      (.nextThresholdBelowRoot commitment.nextThreshold.toNat rootAfter.threshold.toNat)
    pure (some (.fixed commitment))

def fixedCommitments : Option StandingCommitment → List Digest
  | some (.fixed commitment) => commitment.commitments.map (·.commitment)
  | some (.abandoned _ _) | none => []

/-- Installed keys were never revealed nor committed to, and fixed commitments
commit to no installed or revealed key, at or before the event. -/
def checkFreshness (position : Position) (preimage : EventPreimage)
    (snapshot : Option AppliedSnapshot) (continuation : Option StandingCommitment) :
    Except ContentDefect Unit := do
  let installed := snapshot.elim [] (·.installed)
  let fixed := fixedCommitments continuation
  let revealedCommitments := preimage.revealedKeys.map (prerotationCommitment C)
  let wasRevealed := fun key => decide (key ∈ preimage.revealedKeys) ||
    position.chain?.any (·.wasRevealed key)
  let wasFixed := fun commitment => decide (commitment ∈ fixed) ||
    position.chain?.any (·.wasFixed commitment)
  let commitsToRevealed := fun commitment => decide (commitment ∈ revealedCommitments) ||
    position.chain?.any (·.revealedCommitment commitment)
  checkEach (fun (t : Key × KeyRole) => do
    require (!wasRevealed t.1) (.installedKeyRevealed t.1)
    require (!wasFixed (prerotationCommitment C t.1)) (.installedKeyCommitted t.1)) installed
  checkEach (fun commitment => do
    require (!position.chain?.any (·.installedCommitment commitment))
      (.commitmentToInstalledKey commitment)
    require (!commitsToRevealed commitment) (.commitmentToRevealedKey commitment)) fixed

def snapshotEntry (snapshot : KeyStateSnapshot) (key : Key) : Option KeyEntry :=
  snapshot.keys.find? (·.key = key)

def signerSpecs (groups : List HeaderGroup) (keySets : List KeySet) : List SignerGroupSpec :=
  (groups.zip keySets).map (fun (group, keys) =>
    ⟨group.role, keys.threshold, keys.keys.map (fun (index, key) => ⟨index, key⟩),
      group.signers.map (·.index)⟩)

def checkContent (position : Position) (header : EventHeader) (preimage : EventPreimage)
    (digest : Digest) : Except ContentDefect Applied := do
  position.chain?.elim (.ok ()) (checkLink · preimage)
  checkSentinels preimage
  checkPoints C preimage
  let continuation ← checkContinuationPresent preimage
  let installedRoot ← checkInstalledRoot preimage
  let head := position.chain?.map (·.head)
  -- The root standing after the event: the installed set, or the predecessor's.
  let rootAfter ← okOr (installedRoot.or (head.map (·.root))) (.fieldAbsent 9)
  let keySets ← checkGroups C position header preimage installedRoot
  let snapshot ← checkSnapshot position preimage installedRoot
  let standing ← checkNextCommitment position preimage continuation rootAfter digest
  checkFreshness C position preimage snapshot standing
  let (snapshotAfter, resolved) ← okOr
    ((snapshot.map (fun s => (s.snapshot, s.resolved))).or (head.map (fun e => (e.snapshot, e.resolved))))
    (.fieldAbsent 10)
  let commitmentAfter ← okOr (standing.or (head.map (·.commitment))) .inceptionFixesNoCommitment
  let installed := snapshot.elim [] (·.installed)
  pure {
    root := rootAfter
    commitment := commitmentAfter
    snapshot := snapshotAfter
    resolved
    installed
    fixed := fixedCommitments standing
    revealed := preimage.revealedKeys
    keySets
    signers := signerSpecs header.groups keySets
    effect := {
      kind := preimage.kind
      sequence := preimage.sequence.toNat
      installedKeys := installed.filterMap (fun t => snapshotEntry snapshotAfter t.1)
      droppedKeys := snapshot.elim [] (·.dropped)
      continuation := preimage.continuation
      rootBefore := head.map (·.root)
      rootAfter
      witnessesBefore := head.map (·.snapshot.witnesses)
      witnessesAfter := snapshotAfter.witnesses } }

/-- Everything a passing content check established, in the order it ran. -/
structure ContentPassed (position : Position) (header : EventHeader) (preimage : EventPreimage)
    (digest : Digest) (applied : Applied) : Prop where
  link : ∀ chain ∈ position.chain?, checkLink chain preimage = .ok ()
  sentinels : checkSentinels preimage = .ok ()
  points : checkPoints C preimage = .ok ()
  continuation : ∃ continuation, checkContinuationPresent preimage = .ok continuation ∧
    ∃ standing, checkNextCommitment position preimage continuation applied.root digest = .ok standing ∧
      applied.fixed = fixedCommitments standing ∧
      standing.or (position.chain?.map (·.head.commitment)) = some applied.commitment ∧
      ∃ snapshot, checkSnapshot position preimage preimage.installedRootSet = .ok snapshot ∧
        checkFreshness C position preimage snapshot standing = .ok () ∧
        applied.installed = snapshot.elim [] (·.installed) ∧
        (snapshot.map (fun s => (s.snapshot, s.resolved))).or
          (position.chain?.map (fun c => (c.head.snapshot, c.head.resolved))) =
            some (applied.snapshot, applied.resolved)
  root : ∀ set ∈ preimage.installedRootSet, set.members.Nodup ∧ 1 ≤ set.threshold.toNat ∧
    set.threshold.toNat ≤ set.members.length
  rootAfter : preimage.installedRootSet.or (position.chain?.map (·.head.root)) = some applied.root
  groups : checkGroups C position header preimage preimage.installedRootSet = .ok applied.keySets
  revealed : applied.revealed = preimage.revealedKeys
  signers : applied.signers = signerSpecs header.groups applied.keySets

theorem checkThreshold_ok_iff (field : ThresholdField) (threshold size : ℕ) (u : Unit) :
    checkThreshold field threshold size = .ok u ↔ 1 ≤ threshold ∧ threshold ≤ size := by
  simp [checkThreshold]

theorem checkInstalledRoot_ok_iff (preimage : EventPreimage) (root : Option InstalledRootSet) :
    checkInstalledRoot preimage = .ok root ↔ root = preimage.installedRootSet ∧
      ∀ set ∈ preimage.installedRootSet, set.members.Nodup ∧ 1 ≤ set.threshold.toNat ∧
        set.threshold.toNat ≤ set.members.length := by
  unfold checkInstalledRoot
  cases preimage.installedRootSet with
  | none => simp [eq_comm]
  | some set =>
    simp only [bind_ok_iff, exists_unit_iff, require_ok_iff, decide_eq_true_eq,
      checkThreshold_ok_iff, pure_ok_iff, Option.mem_some_iff, forall_eq']
    constructor
    · rintro ⟨hn, ht, rfl⟩
      exact ⟨rfl, hn, ht⟩
    · rintro ⟨rfl, hn, ht⟩
      exact ⟨hn, ht, rfl⟩

theorem checkContent_passed {position : Position} {header : EventHeader} {preimage : EventPreimage}
    {digest : Digest} {applied : Applied}
    (h : checkContent C position header preimage digest = .ok applied) :
    ContentPassed C position header preimage digest applied := by
  simp only [checkContent, bind_ok_iff, exists_unit_iff, checkInstalledRoot_ok_iff, okOr_ok_iff,
    Prod.exists, pure_ok_iff] at h
  obtain ⟨hlink, hs, hp, continuation, hcont, _, ⟨rfl, hroot⟩, rootAfter, hafter, keySets, hgroups,
    snapshot, hsnap, standing, hstand, hfresh, snapshotAfter, resolved, hsa, commitment, hca, rfl⟩ := h
  refine {
    link := ?_
    sentinels := hs
    points := hp
    continuation := ⟨continuation, hcont, standing, hstand, rfl, ?_, snapshot, hsnap, hfresh, rfl, ?_⟩
    root := hroot
    rootAfter := ?_
    groups := hgroups
    revealed := rfl
    signers := rfl }
  · intro chain hchain
    cases position with
    | inception _ => simp [Position.chain?] at hchain
    | next c =>
      obtain rfl := Option.some.inj hchain
      exact hlink
  · simpa only [Option.map_map, Function.comp_def] using hca
  · simpa only [Option.map_map, Function.comp_def] using hsa
  · simpa only [Option.map_map, Function.comp_def] using hafter

end Content

def chainEvent (applied : Applied) (digest : Digest) (preimage : EventPreimage) (unit : Bytes) :
    ChainEvent where
  digest
  sequence := preimage.sequence.toNat
  kind := preimage.kind
  revealRootCosigned := applied.signers.any (fun s => s.role = .standingRoot)
  standingRoot := preimage.standingRoot
  unit
  root := applied.root
  commitment := applied.commitment
  snapshot := applied.snapshot
  resolved := applied.resolved

end ScpCore.Kel
