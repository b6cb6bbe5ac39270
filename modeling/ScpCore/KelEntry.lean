import ScpCore.KelCheck

/-! `validate_entry`: the units one entry served, merged by event digest and
assembled by predecessor digest, then the check order down every path from the
inception to a leaf. -/

namespace ScpCore.Kel

/-- A served unit no chain holds: its index, the position it was read for, and
the failing check. -/
structure Discarded where
  servedIndex : ℕ
  readFor : Option ℕ
  defect : EventDefect
  deriving DecidableEq

def Discarded.read (servedIndex position : ℕ) (defect : EventDefect) : Discarded :=
  ⟨servedIndex, some position, defect⟩

def Discarded.unplaced (servedIndex : ℕ) (defect : EventDefect) : Discarded :=
  ⟨servedIndex, none, defect⟩

/-- The copies of one event, in served order. -/
structure Copies where
  first : Bytes
  rest : List Bytes

namespace Copies

def all (c : Copies) : List Bytes := c.first :: c.rest

def addCopy (c : Copies) (unit : Bytes) : Copies := ⟨c.first, c.rest ++ [unit]⟩

end Copies

section Check
variable (C : Crypto)

/-- The first copy that passes past `chain`'s head, or the first copy's failure. -/
def successor (chain : ValidatedChain) (copies : Copies) : Except EventDefect Accepted :=
  match checkSuccessor C chain copies.first .signed with
  | .ok accepted => .ok accepted
  | .error failure =>
    (copies.rest.findSome? (fun copy =>
      (checkSuccessor C chain copy .signed).toOption)).elim (.error failure) .ok

/-- The first copy after the first that settles position zero. -/
def inceptionRest (identifier : Identifier) (failure : InceptionFailure) :
    List Bytes → Except InceptionFailure Accepted
  | [] => .error failure
  | copy :: rest =>
    match checkInception C copy (some identifier) .signed with
    | .ok accepted => .ok accepted
    | .error (.invalid defect) => .error (.invalid defect)
    | .error (.discard _) => inceptionRest identifier failure rest

/-- The first copy that passes at position zero, or the first copy's failure. An
invalid copy settles the event. -/
def inception (identifier : Identifier) (copies : Copies) :
    Except InceptionFailure Accepted :=
  match checkInception C copies.first (some identifier) .signed with
  | .ok accepted => .ok accepted
  | .error (.invalid defect) => .error (.invalid defect)
  | .error (.discard defect) => inceptionRest C identifier (.discard defect) copies.rest

end Check

/-- One event's copies, the served index of the first, and the identifier they
recompute to. The digest they share is what `by_digest` finds the group by. -/
structure Group where
  digest : Digest
  copies : Copies
  firstServed : ℕ
  recomputed : Identifier

/-- The served units, merged by event digest. `named` lists the later groups with
the predecessor each names, in served order: it is both maps of the source. -/
structure Assembly where
  groups : List Group
  inception : List ℕ
  named : List (ℕ × Digest)
  unplaced : List Discarded

/-- What the placing of a unit reads: its field bytes and the predecessor it
names, or why it joins no chain. -/
def placement (C : Crypto) (identifier : Identifier) (unit : Bytes) :
    Except EventDefect (Bytes × Option Digest) :=
  match decodeEvent unit 0 with
  | .unframed => .error .unframed
  | .noSeparator => .error .noSeparator
  | .headerFailed failed =>
    if failed.predecessor.isNone && identifierOf C failed.fields ≠ identifier then
      .error (.header failed.error)
    else .ok (failed.fields, failed.predecessor)
  | .read read => .ok (read.fields, some read.header.predecessorDigest)

namespace Assembly
variable (C : Crypto) (identifier : Identifier) (asm : Assembly)

/-- Whether a group is read for a position past zero. -/
def isLater (fields : Bytes) (predecessor : Option Digest) : Bool :=
  predecessor.elim false (fun named => named ≠ 0 && identifierOf C fields ≠ identifier)

/-- Merges the unit into its digest's group, or opens the group. -/
def join (index : ℕ) (unit fields : Bytes) (predecessor : Option Digest) : Assembly :=
  let digest := eventDigestOf C fields
  if asm.groups.any (fun g => g.digest = digest) then
    { asm with groups := asm.groups.map (fun g =>
        if g.digest = digest then { g with copies := g.copies.addCopy unit } else g) }
  else
    let group := asm.groups.length
    let groups := asm.groups ++ [⟨digest, ⟨unit, []⟩, index, identifierOf C fields⟩]
    if isLater C identifier fields predecessor then
      { asm with groups := groups, named := asm.named ++ [(group, predecessor.getD 0)] }
    else { asm with groups := groups, inception := asm.inception ++ [group] }

def place (index : ℕ) (unit : Bytes) : Assembly :=
  match placement C identifier unit with
  | .error defect => { asm with unplaced := asm.unplaced ++ [.unplaced index defect] }
  | .ok (fields, predecessor) => asm.join C identifier index unit fields predecessor

/-- Places the units from `index` on. -/
def placeFrom (asm : Assembly) : ℕ → List Bytes → Assembly
  | _, [] => asm
  | index, unit :: units => placeFrom (asm.place C identifier index unit) (index+1) units

def new (units : List Bytes) : Assembly := placeFrom C identifier ⟨[], [], [], []⟩ 0 units

/-- The groups naming `head`, in served order. -/
def childrenOf (head : Digest) : List (ℕ × Group) :=
  (asm.named.filter (fun p => p.2 = head)).filterMap (fun p =>
    asm.groups[p.1]?.map (fun g => (p.1, g)))

end Assembly

/-- The groups offered so far and the units discarded. -/
structure Visit where
  visited : List ℕ
  discarded : List Discarded

section Walk
variable (C : Crypto) (asm : Assembly)

/-- Offers each group at the position past `chain`'s head, once. -/
def offer (chain : ValidatedChain) : List (ℕ × Group) → Visit → List Accepted × Visit
  | [], v => ([], v)
  | (index, group) :: rest, v =>
    if index ∈ v.visited then offer chain rest v
    else
      match successor C chain group.copies with
      | .ok accepted =>
        let (passed, v) := offer chain rest { v with visited := index :: v.visited }
        (accepted :: passed, v)
      | .error defect =>
        offer chain rest {
          visited := index :: v.visited
          discarded := v.discarded ++ [.read group.firstServed chain.nextPosition defect] }

/-- Extends `chain` by its first passing successor until none passes; each later
one that passes starts a branch. The top of the stack comes first. -/
def descend : ℕ → ValidatedChain → Visit → List ValidatedChain →
    ValidatedChain × Visit × List ValidatedChain
  | 0, chain, v, stack => (chain, v, stack)
  | fuel+1, chain, v, stack =>
    match offer C chain (asm.childrenOf chain.headDigest) v with
    | ([], v) => (chain, v, stack)
    | (next :: passed, v) =>
      descend fuel (chain.push C next) v (passed.map (chain.push C) ++ stack)

/-- Descends every branch left on the stack. -/
def drain : ℕ → List ValidatedChain → Visit → List ValidatedChain × Visit
  | 0, _, v => ([], v)
  | _, [], v => ([], v)
  | fuel+1, branch :: stack, v =>
    let (leaf, v, stack) := descend C asm (asm.groups.length+1) branch v stack
    let (rest, v) := drain fuel stack v
    (leaf :: rest, v)

/-- Runs the check order down every path from the inception, depth first. -/
def branches (root : ValidatedChain) (v : Visit) : List ValidatedChain × Visit :=
  let (first, v, stack) := descend C asm (asm.groups.length+1) root v []
  let (rest, v) := drain C asm (asm.groups.length+1) stack v
  (first :: rest, v)

end Walk

inductive EntryVerdict
  | inceptionInvalid (defect : InceptionDefect)
  | noInception
  | valid (chains : List ValidatedChain)
  deriving DecidableEq

structure EntryValidation where
  verdict : EntryVerdict
  discarded : List Discarded
  deriving DecidableEq

/-- What reading the groups for position zero found. -/
structure Roots where
  visit : Visit
  root : Option ValidatedChain
  invalid : Option InceptionDefect

section Entry
variable (C : Crypto) (identifier : Identifier)

/-- Reads one group for position zero. -/
def readRoot (asm : Assembly) (r : Roots) (index : ℕ) : Roots :=
  let r := { r with visit.visited := index :: r.visit.visited }
  let discard (group : Group) (defect : EventDefect) : Roots :=
    { r with visit.discarded := r.visit.discarded ++ [.read group.firstServed 0 defect] }
  match asm.groups[index]? with
  | none => r
  | some group =>
    if group.recomputed ≠ identifier then discard group (.identifierMismatch group.recomputed)
    else match inception C identifier group.copies with
      | .ok accepted => { r with root := some (.fromInception C identifier accepted) }
      | .error (.invalid defect) => { r with invalid := some defect }
      | .error (.discard defect) => discard group defect

def readRoots (asm : Assembly) : Roots :=
  asm.inception.foldl (readRoot C identifier asm) ⟨⟨[], []⟩, none, none⟩

/-- The groups no chain reached, each with the predecessor it names. -/
def unreached (asm : Assembly) (v : Visit) : List Discarded :=
  asm.named.filterMap (fun p =>
    if p.1 ∈ v.visited then none
    else asm.groups[p.1]?.map (fun g =>
      .unplaced g.firstServed (.predecessorMismatch p.2)))

def validateEntry (units : List Bytes) : EntryValidation :=
  let asm := Assembly.new C identifier units
  let r := readRoots C identifier asm
  let (verdict, v) := match r.invalid, r.root with
    | some defect, _ => (EntryVerdict.inceptionInvalid defect, r.visit)
    | none, some root =>
      let (chains, v) := branches C asm root r.visit
      (.valid chains, v)
    | none, none => (.noInception, r.visit)
  ⟨verdict, (v.discarded ++ asm.unplaced ++ unreached asm v).insertionSort
    (fun a b => a.servedIndex ≤ b.servedIndex)⟩

end Entry

end ScpCore.Kel
