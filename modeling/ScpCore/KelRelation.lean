import ScpCore.KelOrderFree
import ScpCore.KelRebuild

/-! How a device reads what another served of its own identity. Each served chain has
one relation to the own log; what an arm may adopt is ranked with the own log in one
set, and the device moves to the winner of that set or nowhere. -/

namespace ScpCore.Kel

/-- The withheld recovery, by where it stands and what it hashes to. -/
structure WithheldEvent where
  sequence : ℕ
  digest : Digest
  deriving DecidableEq

/-- The relation of one served chain, with the validated copy every act reads. -/
inductive Reading
  | absent
  | identical (served : ValidatedChain)
  | superseded (served : ValidatedChain)
  | adopted (served : ValidatedChain)
  | withheld (served adopted : ValidatedChain) (withheld : WithheldEvent)
  | diverged (served : ValidatedChain) (divergence : Divergence)
  deriving DecidableEq

inductive ExtendingAct
  | adopted | withheld
  deriving DecidableEq

inductive ChainRelation
  | absent | identical | superseded | extending (act : ExtendingAct) | diverged
  deriving DecidableEq

namespace Reading

def relation : Reading → ChainRelation
  | .absent => .absent
  | .identical _ => .identical
  | .superseded _ => .superseded
  | .adopted _ => .extending .adopted
  | .withheld _ _ _ => .extending .withheld
  | .diverged _ _ => .diverged

/-- The served valid prefix, `none` where no chain was served. -/
def served : Reading → Option ValidatedChain
  | .absent => none
  | .identical served | .superseded served | .adopted served | .withheld served _ _
  | .diverged served _ => some served

def divergence : Reading → Option Divergence
  | .diverged _ divergence => some divergence
  | _ => none

/-- The ranks of a divergence are the own log's, then the served chain's. -/
def servedOutranksOwn (reading : Reading) : Bool :=
  reading.divergence.any (fun divergence => divergence.ranks.2.beats divergence.ranks.1)

/-- The chain the reading names for adoption. -/
def candidate : Reading → Option ValidatedChain
  | .adopted served => some served
  | .withheld _ cut _ => some cut
  | .diverged served divergence =>
    if servedOutranksOwn (.diverged served divergence) then some served else none
  | .absent | .identical _ | .superseded _ => none

end Reading

inductive RelationError
  | unrelated (error : UnrelatedChains)
  | noPrefixBefore (withheldSequence : ℕ)
  | resolve (error : ResolveError)
  deriving DecidableEq

inductive EntryAdoption
  | keep
  | adopt (chain : ValidatedChain)
  | contested (tieClass : TieClass) (tied : List ValidatedChain) (sharedPrefixHead : Digest)
      (forkPosition : ℕ)
  deriving DecidableEq

structure EntryRelations where
  readings : List Reading
  discarded : List Discarded
  servedAnyUnit : Bool
  adoption : EntryAdoption
  deriving DecidableEq

/-- A recovery that declares the standing root lost and that the device did not author. -/
def ChainEvent.UnauthoredLost (authored : List Digest) (e : ChainEvent) : Prop :=
  e.kind = .rootRecovery ∧ e.standingRoot = some .lost ∧ e.digest ∉ authored

instance (authored : List Digest) (e : ChainEvent) : Decidable (e.UnauthoredLost authored) :=
  inferInstanceAs (Decidable (_ ∧ _ ∧ _))

/-- The first unauthored `{Lost}` past the own head. -/
def withheldEvent (own served : ValidatedChain) (authored : List Digest) : Option WithheldEvent :=
  (served.events.find? (fun event =>
    own.headSequence < event.sequence ∧ event.UnauthoredLost authored)).map
      (fun event => ⟨event.sequence, event.digest⟩)

def extending (own served : ValidatedChain) (authored : List Digest) :
    Except RelationError Reading :=
  match withheldEvent own served authored with
  | none => .ok (.adopted served)
  | some withheld => do
    let noPrefix := RelationError.noPrefixBefore withheld.sequence
    let before ← okOr (if withheld.sequence = 0 then none else some (withheld.sequence-1)) noPrefix
    let adopted ← okOr (served.prefixThrough before) noPrefix
    pure (.withheld served adopted withheld)

def readChain (own chain : ValidatedChain) (authored : List Digest) :
    Except RelationError Reading := do
  match ← (pairChains own chain).mapError .unrelated with
  | .identical => pure (.identical chain)
  | .rightPrefixOfLeft => pure (.superseded chain)
  | .leftPrefixOfRight => extending own chain authored
  | .diverged divergence => pure (.diverged chain divergence)

/-- The chain of `set` with that head. -/
def byHead (set : List ValidatedChain) (head : Digest) : Except RelationError ValidatedChain :=
  okOr (set.find? (·.headDigest = head)) (.resolve .noResolution)

/-- What R6 makes of the own log and the candidates, `set` together. -/
def adoptFrom (own : ValidatedChain) (set : List ValidatedChain) :
    Except RelationError EntryAdoption := do
  match ← (resolveSet set).mapError .resolve with
  | .winner head =>
    if head = own.headDigest then pure .keep
    else do
      let chain ← byHead set head
      pure (.adopt chain)
  | .tie tieClass heads sharedPrefixHead forkPosition => do
    let tied ← mapEach (byHead set) heads
    pure (.contested tieClass tied sharedPrefixHead forkPosition)
  -- The set holds the own log, so it is never empty.
  | .empty => throw (.resolve .noResolution)

def adopt (own : ValidatedChain) (readings : List Reading) : Except RelationError EntryAdoption :=
  let candidates := readings.filterMap Reading.candidate
  if candidates.isEmpty then .ok .keep else adoptFrom own (own :: candidates)

/-- One reading for each chain of the verdict. A discarded position is unserved, so units
without a valid inception serve no chain. -/
def readVerdict (own : ValidatedChain) (authored : List Digest) :
    EntryVerdict → Except RelationError (List Reading)
  | .noInception | .inceptionInvalid _ => .ok [.absent]
  | .valid chains => mapEach (fun chain => readChain own chain authored) chains

def classifyRelation (C : Crypto) (own : ValidatedChain) (served : List Bytes)
    (authored : List Digest) : Except RelationError EntryRelations := do
  let validation := validateEntry C own.identifier served
  let readings ← readVerdict own authored validation.verdict
  let adoption ← adopt own readings
  pure ⟨readings, validation.discarded, !served.isEmpty, adoption⟩

/-- Whether a recovery is withheld does not depend on the copies read. -/
theorem withheldEvent_strip (own c : ValidatedChain) (authored : List Digest) :
    withheldEvent own c.strip authored = withheldEvent own c authored := by
  rw [withheldEvent, ValidatedChain.strip_events, List.find?_map, Option.map_map]
  rfl

/-- What a relation says of the own log and a served chain. -/
def ChainRelation.Describes (own : ValidatedChain) (authored : List Digest) :
    ChainRelation → Option ValidatedChain → Prop
  | .absent, none => True
  | .identical, some c => c.eventDigests = own.eventDigests
  | .superseded, some c => c.eventDigests <+: own.eventDigests ∧ own.eventDigests ≠ c.eventDigests
  | .extending act, some c => own.eventDigests <+: c.eventDigests ∧
      own.eventDigests ≠ c.eventDigests ∧ (act = .withheld ↔
        ∃ e ∈ c.events, own.headSequence < e.sequence ∧ e.UnauthoredLost authored)
  | .diverged, some c => ¬ own.eventDigests <+: c.eventDigests ∧ ¬ c.eventDigests <+: own.eventDigests
  | _, _ => False

/-- At most one relation describes two logs. -/
theorem ChainRelation.Describes.unique {own : ValidatedChain} {authored : List Digest}
    {r r' : ChainRelation} {served : Option ValidatedChain} (h : r.Describes own authored served)
    (h' : r'.Describes own authored served) : r = r' := by
  cases served with
  | none => cases r <;> cases r' <;> simp_all [ChainRelation.Describes]
  | some c =>
    -- Two prefixes of each other are equal, so no two of the cases meet.
    have hanti (hp : own.eventDigests <+: c.eventDigests) (hp' : c.eventDigests <+: own.eventDigests) :
        own.eventDigests = c.eventDigests :=
      hp.eq_of_length (hp.length_le.antisymm hp'.length_le)
    cases r <;> cases r' <;> simp only [ChainRelation.Describes] at h h' <;> try grind
    case extending.extending act act' =>
      have hact : act = .withheld ↔ act' = .withheld := h.2.2.trans h'.2.2.symm
      cases act <;> cases act' <;> simp_all

/-- No event past the own log is an unauthored `{Lost}`. -/
def WithoutLost (own : ValidatedChain) (authored : List Digest) (c : ValidatedChain) : Prop :=
  ∀ e ∈ c.events, own.headSequence < e.sequence → ¬ e.UnauthoredLost authored

/-- The events of the candidate a served chain makes. -/
def candidateEvents (b : Book) (own c : ValidatedChain) (authored : List Digest) :
    Option (List Digest) :=
  match b.pairing own.eventDigests c.eventDigests with
  | .leftPrefixOfRight => some ((withheldEvent own c authored).elim c.eventDigests
      (fun withheld => c.eventDigests.take withheld.sequence))
  | .diverged divergence =>
    if divergence.ranks.2.beats divergence.ranks.1 then some c.eventDigests else none
  | _ => none

theorem candidateEvents_strip (b : Book) (own c : ValidatedChain) (authored : List Digest) :
    candidateEvents b own c.strip authored = candidateEvents b own c authored := by
  rw [candidateEvents, ValidatedChain.strip_eventDigests, withheldEvent_strip]
  rfl

/-- What reading the served chain `c` comes to. -/
structure ReadsAs (b : Book) (own : ValidatedChain) (authored : List Digest) (c : ValidatedChain)
    (reading : Reading) : Prop where
  served : reading.served = some c
  describes : reading.relation.Describes own authored (some c)
  candidate : ∀ x ∈ reading.candidate, OnBook b x ∧
    ((own.eventDigests <+: x.eventDigests ∧ WithoutLost own authored x) ∨ x.Beats own)
  events : reading.candidate.map ValidatedChain.eventDigests = candidateEvents b own c authored
  withheld : ∀ s cut w, reading = .withheld s cut w → own.eventDigests <+: cut.eventDigests

section Read
variable {b : Book} {own c : ValidatedChain} (hown : OnBook b own) (hc : OnBook b c)
  {authored : List Digest}

theorem withheldEvent_none_iff :
    withheldEvent own c authored = none ↔ WithoutLost own authored c := by
  simp only [withheldEvent, Option.map_eq_none_iff, List.find?_eq_none, decide_eq_true_eq, not_and,
    WithoutLost]

include hc in
/-- The chain before the withheld event ends right before it and holds no other such
event past the own head. -/
theorem before_withheld {w : WithheldEvent} (h : withheldEvent own c authored = some w) :
    own.headSequence < w.sequence ∧ w.sequence < c.len ∧
      ∀ e ∈ c.events.take w.sequence, own.headSequence < e.sequence →
        ¬ e.UnauthoredLost authored := by
  obtain ⟨e, hfind, rfl⟩ := Option.map_eq_some_iff.mp h
  obtain ⟨hp, before, after, hsplit, hnot⟩ := List.find?_eq_some_iff_append.mp hfind
  rw [decide_eq_true_eq] at hp
  -- An event stands at its sequence, so the events before it are those `take` keeps.
  have hat : c.events[before.length]? = some e := by
    rw [hsplit]
    simp
  have hseq : e.sequence = before.length := hc.sequence _ _ hat
  have hlen : c.len = before.length+(after.length+1) := by
    rw [← c.length_events, hsplit, List.length_append, List.length_cons]
  refine ⟨hp.1, by show e.sequence < c.len; omega, ?_⟩
  intro f hf hpast hlost
  have htake : c.events.take e.sequence = before := by
    rw [hseq, hsplit, List.take_left]
  rw [htake] at hf
  have hfail := hnot f hf
  simp [hpast, hlost] at hfail

include hown hc

/-- The extending arm always decides, and adopts a prefix that holds the own log. -/
theorem extending_ok (authored : List Digest) (hp : own.eventDigests <+: c.eventDigests) :
    (withheldEvent own c authored = none ∧ extending own c authored = .ok (.adopted c)) ∨
    ∃ w cut, withheldEvent own c authored = some w ∧
      extending own c authored = .ok (.withheld c cut w) ∧ OnBook b cut ∧
      cut.events = c.events.take w.sequence ∧ own.eventDigests <+: cut.eventDigests := by
  unfold extending
  cases hw : withheldEvent own c authored with
  | none => exact .inl ⟨rfl, rfl⟩
  | some w =>
    obtain ⟨hpast, hlt, -⟩ := before_withheld hc hw
    obtain ⟨cut, hcut⟩ := hc.prefixThrough_isSome (show w.sequence-1 < c.len by omega)
    obtain ⟨hon, hdigests⟩ := hc.prefixThrough hcut
    have hevents := (hc.prefixThrough_events hcut).1
    have hsucc : w.sequence-1+1 = w.sequence := by omega
    rw [hsucc] at hevents hdigests
    refine .inr ⟨w, cut, rfl, ?_, hon, hevents, ?_⟩
    · simp only [bind_ok_iff, okOr_ok_iff, pure_ok_iff]
      exact ⟨w.sequence-1, by rw [if_neg (by omega)], cut, hcut, rfl⟩
    · rw [hdigests, List.prefix_take_iff]
      have hlen := hown.headSequence_eq
      have hpos := own.len_pos
      rw [own.length_eventDigests]
      exact ⟨hp, by omega⟩

/-- A chain the own log is a proper prefix of is read as extending it. -/
theorem readChain_extending (hp : own.eventDigests <+: c.eventDigests)
    (hne : own.eventDigests ≠ c.eventDigests)
    (hpair : b.pairing own.eventDigests c.eventDigests = .leftPrefixOfRight) :
    ∃ reading, extending own c authored = .ok reading ∧ ReadsAs b own authored c reading := by
  -- Either nothing past the own head is lost, or the chain is cut before the first loss.
  obtain ⟨hw, hext⟩ | ⟨w, cut, hw, hext, hon, hcut, hin⟩ :=
    extending_ok hown hc authored hp
  · have hwithout := withheldEvent_none_iff.mp hw
    refine ⟨.adopted c, hext, rfl, ⟨hp, hne, ?_⟩, ?_, ?_, ?_⟩
    · constructor
      · intro hact
        cases hact
      · intro hlost
        obtain ⟨e, he, hpast, hlost⟩ := hlost
        exact absurd hlost (hwithout e he hpast)
    · intro x hx
      rw [Reading.candidate, Option.mem_some_iff] at hx
      rw [← hx]
      exact ⟨hc, .inl ⟨hp, hwithout⟩⟩
    · simp only [candidateEvents, hpair, hw]
      rfl
    · intro s cut w hw
      cases hw
  · have hwithout : WithoutLost own authored cut := by
      unfold WithoutLost
      rw [hcut]
      exact (before_withheld hc hw).2.2
    refine ⟨.withheld c cut w, hext, rfl, ⟨hp, hne, ?_⟩, ?_, ?_, ?_⟩
    · have hsome : ¬ WithoutLost own authored c := by
        rw [← withheldEvent_none_iff, hw]
        simp
      unfold WithoutLost at hsome
      push Not at hsome
      exact ⟨fun _ => hsome, fun _ => rfl⟩
    · intro x hx
      rw [Reading.candidate, Option.mem_some_iff] at hx
      rw [← hx]
      exact ⟨hon, .inl ⟨hin, hwithout⟩⟩
    · simp only [candidateEvents, hpair, hw, Reading.candidate, Option.map_some, Option.elim_some]
      rw [ValidatedChain.eventDigests, hcut, List.map_take]
      rfl
    · intro s cut' w' hw'
      cases hw'
      exact hin

/-- A chain that forks from the own log is a candidate where it beats it. -/
theorem readsAs_diverged (h₁ : ¬ own.eventDigests <+: c.eventDigests)
    (h₂ : ¬ c.eventDigests <+: own.eventDigests)
    (hpair : b.pairing own.eventDigests c.eventDigests =
      .diverged (b.divergence own.eventDigests c.eventDigests)) :
    ReadsAs b own authored c (.diverged c (b.divergence own.eventDigests c.eventDigests)) := by
  refine ⟨rfl, ⟨h₁, h₂⟩, ?_, ?_, ?_⟩
  · intro x hx
    simp only [Reading.candidate, Reading.servedOutranksOwn, Reading.divergence, Option.any_some,
      Option.mem_def, Option.ite_none_right_eq_some, Option.some.injEq, ForkRank.beats_iff] at hx
    obtain ⟨hlt, rfl⟩ := hx
    refine ⟨hc, .inr ((hc.beats_iff hown).mpr ⟨h₂, h₁, ?_⟩)⟩
    rw [sharedLen_comm]
    exact hlt
  · by_cases hbeats : (b.divergence own.eventDigests c.eventDigests).ranks.2.beats
        (b.divergence own.eventDigests c.eventDigests).ranks.1 = true
    · simp [candidateEvents, hpair, Reading.candidate, Reading.servedOutranksOwn,
        Reading.divergence, hbeats]
    · simp [candidateEvents, hpair, Reading.candidate, Reading.servedOutranksOwn,
        Reading.divergence, hbeats]
  · intro s cut w hw
    cases hw

/-- Every served chain is read, and its reading is what the two logs call for. -/
theorem readChain_ok (authored : List Digest) : ∃ reading, readChain own c authored = .ok reading ∧
    ReadsAs b own authored c reading := by
  unfold readChain
  rw [hown.pairChains_eq hc]
  obtain ⟨hpair, he⟩ | ⟨hpair, hp, hne⟩ | ⟨hpair, hp, hne⟩ | ⟨hpair, h₁, h₂⟩ :=
    Book.pairing_cases b own.eventDigests c.eventDigests
  · have hnone : candidateEvents b own c authored = none := by simp only [candidateEvents, hpair]
    rw [hpair]
    refine ⟨.identical c, rfl, rfl, he.symm, ?_, by rw [hnone]; rfl, ?_⟩
    · intro x hx
      cases hx
    · intro s cut w hw
      cases hw
  · rw [hpair]
    exact readChain_extending hown hc hp hne hpair
  · have hnone : candidateEvents b own c authored = none := by simp only [candidateEvents, hpair]
    rw [hpair]
    refine ⟨.superseded c, rfl, rfl, ⟨hp, hne⟩, ?_, by rw [hnone]; rfl, ?_⟩
    · intro x hx
      cases hx
    · intro s cut w hw
      cases hw
  · rw [hpair]
    exact ⟨_, rfl, readsAs_diverged hown hc h₁ h₂ hpair⟩

end Read

/-- Adoptions that name the same events. -/
def EntryAdoption.Same : EntryAdoption → EntryAdoption → Prop
  | .keep, .keep => True
  | .adopt c, .adopt d => c.eventDigests = d.eventDigests
  | .contested tieClass tied sharedPrefixHead forkPosition,
    .contested tieClass' tied' sharedPrefixHead' forkPosition' =>
      tieClass = tieClass' ∧ tied.map ValidatedChain.eventDigests =
        tied'.map ValidatedChain.eventDigests ∧ sharedPrefixHead = sharedPrefixHead' ∧
        forkPosition = forkPosition'
  | _, _ => False

/-- The adoption a resolution of `set` calls for, in whichever copies. -/
def EntryAdoption.MadeBy (own : ValidatedChain) (set : List ValidatedChain) :
    SetResolution → EntryAdoption → Prop
  | .winner head, .keep => head = own.headDigest
  | .winner head, .adopt c => head ≠ own.headDigest ∧ c ∈ set ∧ c.headDigest = head
  | .tie tieClass heads sharedPrefixHead forkPosition,
    .contested tieClass' tied sharedPrefixHead' forkPosition' =>
      tieClass = tieClass' ∧ sharedPrefixHead = sharedPrefixHead' ∧ forkPosition = forkPosition' ∧
        List.Forall₂ (fun head c => c ∈ set ∧ c.headDigest = head) heads tied
  | _, _ => False

section Adopt
variable {b : Book} {own : ValidatedChain} {set set' : List ValidatedChain}

theorem byHead_ok {head : Digest} (h : ∃ c ∈ set, c.headDigest = head) :
    ∃ c, byHead set head = .ok c ∧ c ∈ set ∧ c.headDigest = head := by
  have hsome : (set.find? (·.headDigest = head)).isSome := by
    rw [List.find?_isSome]
    simpa using h
  obtain ⟨c, hc⟩ := Option.isSome_iff_exists.mp hsome
  have hhead := List.find?_some hc
  rw [decide_eq_true_eq] at hhead
  refine ⟨c, ?_, List.mem_of_find?_eq_some hc, hhead⟩
  rw [byHead, okOr_ok_iff, hc]

/-- A set with the own log in it is decided, as its resolution calls for. -/
theorem adoptFrom_ok (hon : ∀ c ∈ set, OnBook b c) (hown : own ∈ set) :
    ∃ adoption resolution, adoptFrom own set = .ok adoption ∧ resolveSet set = .ok resolution ∧
      adoption.MadeBy own set resolution := by
  obtain ⟨resolution, hok, hres⟩ := Book.resolveSet_ok hon
  unfold adoptFrom
  rw [hok]
  cases resolution with
  | winner head =>
    by_cases hkeep : head = own.headDigest
    · exact ⟨.keep, .winner head, by simp [Except.mapError, hkeep], rfl, hkeep⟩
    · obtain ⟨w, hw, hhead, -⟩ := Book.winner_spec hon hres
      obtain ⟨c, hfound, hc⟩ := byHead_ok ⟨w, hw, hhead⟩
      refine ⟨.adopt c, .winner head, ?_, rfl, hkeep, hc⟩
      simp [Except.mapError, hkeep, hfound]
  | tie tieClass heads sharedPrefixHead forkPosition =>
    obtain ⟨-, htied, -⟩ := Book.tie_spec hon hres
    have hfind : ∀ head ∈ heads, ∃ c, byHead set head = .ok c ∧ c ∈ set ∧ c.headDigest = head := by
      intro head hhead
      obtain ⟨t, ht, hdig, -⟩ := htied head hhead
      exact byHead_ok ⟨t, ht, hdig⟩
    obtain ⟨tied, hmap, hall⟩ := mapEach_exists_ok hfind
    refine ⟨.contested tieClass tied sharedPrefixHead forkPosition,
      .tie tieClass heads sharedPrefixHead forkPosition, ?_, rfl, rfl, rfl, rfl, hall⟩
    simp [Except.mapError, hmap]
  | empty =>
    have hin : b.branch own ∈ b.branches set := Book.mem_branches hown
    rw [show b.branches set = ∅ from hres] at hin
    exact absurd hin (Set.notMem_empty _)

/-- The own log alone is its own winner. -/
theorem resolveSet_singleton (hown : OnBook b own) :
    resolveSet [own] = .ok (.winner own.headDigest) := by
  have hon : ∀ c ∈ [own], OnBook b c := by simpa using hown
  rw [Book.resolveSet_eq_iff hon]
  refine ⟨b.branch own, ?_, own.headDigest_eq⟩
  intro x
  have hmem (y : Branch b.label) : y ∈ b.branches [own] ↔ y = b.branch own := by
    simp [Book.branches, eq_comm]
  constructor
  · intro hx
    exact (hmem x).mp hx.prop
  · intro hx
    subst hx
    refine ⟨(hmem _).mpr rfl, ?_⟩
    intro y hy _
    exact ((hmem y).mp hy).le

/-- The adoption always decides, and decides what the set of the own log and the
candidates calls for. -/
theorem adopt_ok {readings : List Reading}
    (hon : ∀ c ∈ own :: readings.filterMap Reading.candidate, OnBook b c) :
    ∃ adoption resolution, adopt own readings = .ok adoption ∧
      resolveSet (own :: readings.filterMap Reading.candidate) = .ok resolution ∧
      adoption.MadeBy own (own :: readings.filterMap Reading.candidate) resolution := by
  unfold adopt
  by_cases hempty : readings.filterMap Reading.candidate = []
  · simp only [hempty]
    exact ⟨.keep, .winner own.headDigest, rfl,
      resolveSet_singleton (hon own List.mem_cons_self), rfl⟩
  · have hfalse : (readings.filterMap Reading.candidate).isEmpty = false := by simpa using hempty
    simp only [hfalse, Bool.false_eq_true, if_false]
    exact adoptFrom_ok hon List.mem_cons_self

/-- A head names the same events wherever it is found. -/
theorem paths_of_heads (hon : ∀ c ∈ set, OnBook b c) {heads : List Digest}
    {tied : List ValidatedChain}
    (h : List.Forall₂ (fun head c => c ∈ set ∧ c.headDigest = head) heads tied) :
    tied.map ValidatedChain.eventDigests = heads.map b.path := by
  induction h with
  | nil => rfl
  | cons hc _ ih => rw [List.map_cons, List.map_cons, ih, ← hc.2, (hon _ hc.1).path_head]

/-- One resolution makes one adoption, whichever copies it is made in. -/
theorem EntryAdoption.MadeBy.same (hon : ∀ c ∈ set, OnBook b c) (hon' : ∀ c ∈ set', OnBook b c)
    {resolution : SetResolution} {adoption adoption' : EntryAdoption}
    (h : adoption.MadeBy own set resolution) (h' : adoption'.MadeBy own set' resolution) :
    adoption.Same adoption' := by
  cases resolution with
  | winner head =>
    cases adoption with
    | keep =>
      cases adoption' with
      | keep => exact True.intro
      | adopt d => exact absurd h h'.1
      | contested _ _ _ _ => exact absurd h' not_false
    | adopt c =>
      cases adoption' with
      | keep => exact absurd h' h.1
      | adopt d => exact (hon c h.2.1).eq_of_head (hon' d h'.2.1) (h.2.2.trans h'.2.2.symm)
      | contested _ _ _ _ => exact absurd h' not_false
    | contested _ _ _ _ => exact absurd h not_false
  | empty => cases adoption <;> exact absurd h not_false
  | tie tieClass heads sharedPrefixHead forkPosition =>
    cases adoption with
    | keep => exact absurd h not_false
    | adopt c => exact absurd h not_false
    | contested _ tied _ _ =>
    cases adoption' with
    | keep => exact absurd h' not_false
    | adopt c => exact absurd h' not_false
    | contested _ tied' _ _ =>
    obtain ⟨rfl, rfl, rfl, hall⟩ := h
    obtain ⟨rfl, rfl, rfl, hall'⟩ := h'
    exact ⟨rfl, (paths_of_heads hon hall).trans (paths_of_heads hon' hall').symm, rfl, rfl⟩

end Adopt

/-- The chains an entry served. -/
def EntryVerdict.chains : EntryVerdict → List ValidatedChain
  | .valid chains => chains
  | .noInception | .inceptionInvalid _ => []

/-- The chains an entry served, or one that is absent. -/
def EntryVerdict.served : EntryVerdict → List (Option ValidatedChain)
  | .valid chains => chains.map some
  | .noInception | .inceptionInvalid _ => [none]

section Entry
variable {C : Crypto} {seen : Set Bytes} {identifier : Identifier} {own : ValidatedChain}
  {served : List Bytes} {authored : List Digest}

theorem served_of_reads {b : Book} {chains : List ValidatedChain} {readings : List Reading}
    (h : List.Forall₂ (ReadsAs b own authored) chains readings) :
    readings.map Reading.served = chains.map some := by
  induction h with
  | nil => rfl
  | cons hread _ ih => rw [List.map_cons, List.map_cons, ih, hread.served]

/-- Every chain of a verdict is read, and nothing else is. -/
theorem readVerdict_ok (authored : List Digest) {b : Book} (hown : OnBook b own) {verdict : EntryVerdict}
    (hchains : ∀ c ∈ verdict.chains, OnBook b c) :
    ∃ readings, readVerdict own authored verdict = .ok readings ∧
      readings.map Reading.served = verdict.served ∧
      (∀ reading ∈ readings, reading = .absent ∨
        ∃ c ∈ verdict.chains, ReadsAs b own authored c reading) ∧
      ∀ c ∈ verdict.chains, ∃ reading ∈ readings, ReadsAs b own authored c reading := by
  have habsent : (∀ reading ∈ [Reading.absent], reading = .absent ∨
        ∃ c ∈ ([] : List ValidatedChain), ReadsAs b own authored c reading) ∧
      ∀ c ∈ ([] : List ValidatedChain), ∃ reading ∈ [Reading.absent],
        ReadsAs b own authored c reading := by
    constructor
    · intro reading hreading
      exact .inl (List.mem_singleton.mp hreading)
    · intro c hc
      cases hc
  cases verdict with
  | noInception => exact ⟨[.absent], rfl, rfl, habsent⟩
  | inceptionInvalid defect => exact ⟨[.absent], rfl, rfl, habsent⟩
  | valid chains =>
    have hread (c : ValidatedChain) (hc : c ∈ chains) :=
      readChain_ok hown (hchains c hc) authored
    obtain ⟨readings, hmap, hall⟩ := mapEach_exists_ok hread
    have hreads {c : ValidatedChain} {reading : Reading} (hc : c ∈ chains)
        (h : readChain own c authored = .ok reading) : ReadsAs b own authored c reading := by
      obtain ⟨reading', hok, has⟩ := hread c hc
      rw [h, Except.ok.injEq] at hok
      rwa [hok]
    refine ⟨readings, hmap, served_of_reads hall, ?_, ?_⟩
    · intro reading hreading
      obtain ⟨c, hc, hok⟩ := mapEach_mem_right hmap hreading
      exact .inr ⟨c, hc, hreads hc hok⟩
    · intro c hc
      obtain ⟨reading, hreading, hok⟩ := mapEach_mem_left hmap hc
      exact ⟨reading, hreading, hreads hc hok⟩

theorem ValidIn.identifier_eq (h : ValidIn C seen identifier own) : own.identifier = identifier := by
  obtain ⟨history, hb, -⟩ := h
  induction hb with
  | inception _ => rfl
  | push _ _ _ ih => exact ih

theorem verdict_chains (identifier : Identifier) (units : List Bytes) :
    (validateEntry C identifier units).verdict.chains =
      (Served.entryChains C identifier units).getD [] := by
  unfold Served.entryChains
  cases (validateEntry C identifier units).verdict <;> rfl

/-- The events of every candidate, read off the chains served. -/
theorem mem_candidates_iff {b : Book} {chains : List ValidatedChain} {readings : List Reading}
    (hreads : ∀ reading ∈ readings, reading = .absent ∨
      ∃ c ∈ chains, ReadsAs b own authored c reading)
    (hread : ∀ c ∈ chains, ∃ reading ∈ readings, ReadsAs b own authored c reading)
    (x : List Digest) : x ∈ eventsOf (readings.filterMap Reading.candidate) ↔
      ∃ c ∈ chains, candidateEvents b own c authored = some x := by
  constructor
  · intro hx
    obtain ⟨y, hy, rfl⟩ := hx
    obtain ⟨reading, hreading, hy⟩ := List.mem_filterMap.mp hy
    obtain rfl | ⟨c, hc, has⟩ := hreads reading hreading
    · cases hy
    · refine ⟨c, hc, ?_⟩
      rw [← has.events, hy, Option.map_some]
  · intro hx
    obtain ⟨c, hc, hx⟩ := hx
    obtain ⟨reading, hreading, has⟩ := hread c hc
    rw [← has.events] at hx
    obtain ⟨y, hy, rfl⟩ := Option.map_eq_some_iff.mp hx
    exact ⟨y, List.mem_filterMap.mpr ⟨reading, hreading, hy⟩, rfl⟩

/-- What a device may rely on in an answer about its own identity. -/
structure MovesForward (own : ValidatedChain) (authored : List Digest) (r : EntryRelations) :
    Prop where
  /-- Each chain served has one relation to the own log. -/
  relation : ∀ reading ∈ r.readings, ∀ relation : ChainRelation,
    relation.Describes own authored reading.served ↔ relation = reading.relation
  /-- The prefix before a withheld event holds the own head. -/
  withheld : ∀ served cut withheld, .withheld served cut withheld ∈ r.readings →
    own.headDigest ∈ cut.eventDigests
  /-- The chain adopted holds the own head, or beats the own log at their fork. -/
  adopted : ∀ c, r.adoption = .adopt c → own.headDigest ∈ c.eventDigests ∨ c.Beats own
  /-- What is new in it is no `{Lost}` of another, unless it beats the own log. -/
  lost : ∀ c, r.adoption = .adopt c → ∀ e ∈ c.events, e.digest ∉ own.eventDigests →
    e.UnauthoredLost authored → c.Beats own

/-- The chain adopted is a candidate. -/
theorem EntryAdoption.MadeBy.candidate {set : List ValidatedChain} {resolution : SetResolution}
    {c : ValidatedChain} (h : EntryAdoption.MadeBy own (own :: set) resolution (.adopt c)) :
    c ∈ set := by
  cases resolution with
  | winner head =>
    obtain ⟨hne, hc, hhead⟩ := h
    rcases List.mem_cons.mp hc with rfl | hc
    · exact absurd hhead.symm hne
    · exact hc
  | tie _ _ _ _ => exact absurd h not_false
  | empty => exact absurd h not_false

/-- Past a prefix an event stands past its head. -/
theorem past_head {b : Book} {c : ValidatedChain} (hown : OnBook b own) (hc : OnBook b c)
    (hp : own.eventDigests <+: c.eventDigests) {e : ChainEvent} (he : e ∈ c.events)
    (hnew : e.digest ∉ own.eventDigests) : own.headSequence < e.sequence := by
  obtain ⟨i, hi⟩ := List.mem_iff_getElem?.mp he
  rw [hc.sequence i e hi, hown.headSequence_eq]
  by_contra hle
  have hpos := own.len_pos
  have hlt : i < own.eventDigests.length := by
    rw [own.length_eventDigests]
    omega
  -- Within the own log the two chains have the same event at `i`.
  have hsame : own.eventDigests[i]? = c.eventDigests[i]? := by
    obtain ⟨rest, hrest⟩ := hp
    rw [← hrest, List.getElem?_append_left hlt]
  have hat : c.eventDigests[i]? = some e.digest := by
    rw [ValidatedChain.eventDigests, List.getElem?_map, hi]
    rfl
  rw [hat] at hsame
  exact hnew (List.mem_of_getElem? hsame)

section Forward
variable {b : Book} (hown : OnBook b own) {chains : List ValidatedChain} {readings : List Reading}
  (hreads : ∀ reading ∈ readings, reading = .absent ∨
    ∃ c ∈ chains, ReadsAs b own authored c reading)

include hreads in
theorem candidate_spec {x : ValidatedChain} (hx : x ∈ readings.filterMap Reading.candidate) :
    OnBook b x ∧ ((own.eventDigests <+: x.eventDigests ∧ WithoutLost own authored x) ∨
      x.Beats own) := by
  obtain ⟨reading, hreading, hx⟩ := List.mem_filterMap.mp hx
  obtain rfl | ⟨c, -, has⟩ := hreads reading hreading
  · cases hx
  · exact has.candidate x hx

include hown hreads in
/-- Readings as the chains call for, with the adoption their candidates make, move forward. -/
theorem movesForward_of_reads {discarded : List Discarded} {servedAnyUnit : Bool}
    {adoption : EntryAdoption} {resolution : SetResolution}
    (hmade : adoption.MadeBy own (own :: readings.filterMap Reading.candidate) resolution) :
    MovesForward own authored ⟨readings, discarded, servedAnyUnit, adoption⟩ := by
  refine ⟨?_, ?_, ?_, ?_⟩
  · intro reading hreading relation
    have hdescribes : reading.relation.Describes own authored reading.served := by
      obtain rfl | ⟨c, -, has⟩ := hreads reading hreading
      · exact True.intro
      · rw [has.served]
        exact has.describes
    constructor
    · intro h
      exact h.unique hdescribes
    · intro h
      rwa [h]
  · intro served cut withheld hreading
    obtain habsent | ⟨c, -, has⟩ := hreads _ hreading
    · cases habsent
    · exact (has.withheld served cut withheld rfl).subset own.headDigest_mem
  · intro c hadopt
    rw [show adoption = .adopt c from hadopt] at hmade
    rcases (candidate_spec hreads hmade.candidate).2 with ⟨hp, -⟩ | hbeats
    · exact .inl (hp.subset own.headDigest_mem)
    · exact .inr hbeats
  · intro c hadopt e he hnew hlost
    rw [show adoption = .adopt c from hadopt] at hmade
    obtain ⟨hc, ⟨hp, hwithout⟩ | hbeats⟩ := candidate_spec hreads hmade.candidate
    · exact absurd hlost (hwithout e he (past_head hown hc hp he hnew))
    · exact hbeats

end Forward

section World
variable (hcf : CollisionFree C seen) (hzero : ∀ signed ∈ seen, C.sha256 signed ≠ 0)
  (hown : ValidIn C seen identifier own)

include hcf in
theorem chains_validIn (hserved : preimagesOf served ⊆ seen) (hroom : served.length ≤ vecMax)
    (identifier : Identifier) :
    ∀ c ∈ (Served.entryChains C identifier served).getD [], ValidIn C seen identifier c := by
  cases hchains : Served.entryChains C identifier served with
  | none => simp
  | some chains => exact entryChains_validIn (hcf.mono hserved) hserved hroom hchains

include hcf hown

/-- An entry is always classified, and its adoption is the one that the own log and the
candidates call for. -/
theorem classifyRelation_ok (hserved : preimagesOf served ⊆ seen)
    (hroom : served.length ≤ vecMax) (authored : List Digest) : ∃ r set resolution,
    classifyRelation C own served authored = .ok r ∧ MovesForward own authored r ∧
      r.readings.map Reading.served = (validateEntry C identifier served).verdict.served ∧
      (∀ c ∈ set, OnBook (bookOf C seen identifier) c) ∧ resolveSet set = .ok resolution ∧
      r.adoption.MadeBy own set resolution ∧ ∀ x, x ∈ eventsOf set ↔ x = own.eventDigests ∨
        ∃ c ∈ (Served.entryChains C identifier served).getD [],
          candidateEvents (bookOf C seen identifier) own c authored = some x := by
  have honBook := hown.onBook hcf
  have hchains := chains_validIn hcf hserved hroom identifier
  rw [← verdict_chains] at hchains ⊢
  obtain ⟨readings, hread, hmap, hreads, hreadAll⟩ := readVerdict_ok authored honBook
    (fun c hc => (hchains c hc).onBook hcf)
  have hset : ∀ c ∈ own :: readings.filterMap Reading.candidate,
      OnBook (bookOf C seen identifier) c := by
    intro c hc
    rcases List.mem_cons.mp hc with rfl | hc
    · exact honBook
    · exact (candidate_spec hreads hc).1
  obtain ⟨adoption, resolution, hadopt, hres, hmade⟩ := adopt_ok hset
  refine ⟨⟨readings, (validateEntry C identifier served).discarded, !served.isEmpty, adoption⟩,
    own :: readings.filterMap Reading.candidate, resolution, ?_,
    movesForward_of_reads honBook hreads hmade, hmap, hset, hres, hmade, ?_⟩
  · unfold classifyRelation
    rw [hown.identifier_eq]
    simp only [hread, hadopt, bind_ok_iff, pure_ok_iff, Except.ok.injEq, exists_eq_left']
  · intro x
    have hcons : x ∈ eventsOf (own :: readings.filterMap Reading.candidate) ↔
        x = own.eventDigests ∨ x ∈ eventsOf (readings.filterMap Reading.candidate) := by
      rw [← List.singleton_append, eventsOf_append, Set.mem_union]
      simp [eventsOf, eq_comm]
    rw [hcons, mem_candidates_iff hreads hreadAll]

include hzero

omit hown in
/-- The chains served make the same candidates whatever order they are served in. -/
theorem candidateEvents_perm {served' : List Bytes} (hserved : preimagesOf served ⊆ seen)
    (hperm : served.Perm served') (b : Book) (x : List Digest) :
    (∃ c ∈ (Served.entryChains C identifier served).getD [],
        candidateEvents b own c authored = some x) ↔
      ∃ c ∈ (Served.entryChains C identifier served').getD [],
        candidateEvents b own c authored = some x := by
  have hstrips := entryChains_strips (hcf.mono hserved)
    (fun signed hs => hzero signed (hserved hs)) hperm identifier
  have hbare (cs : List ValidatedChain) : (∃ c ∈ cs, candidateEvents b own c authored = some x) ↔
      ∃ bare ∈ cs.map ValidatedChain.strip, candidateEvents b own bare authored = some x := by
    simp only [List.mem_map, exists_exists_and_eq_and, candidateEvents_strip]
  rw [hbare ((Served.entryChains C identifier served).getD []),
    hbare ((Served.entryChains C identifier served').getD [])]
  exact exists_congr (fun bare => and_congr_left' (hstrips bare))

/-- A device adopts another device's chain only forward, whatever order it is served in. -/
theorem classifyRelation_only_forward (hserved : preimagesOf served ⊆ seen)
    (hroom : served.length ≤ vecMax) (authored : List Digest) : ∃ r,
    classifyRelation C own served authored = .ok r ∧ MovesForward own authored r ∧
      r.readings.map Reading.served = (validateEntry C identifier served).verdict.served ∧
      ∀ served', served.Perm served' → ∃ r', classifyRelation C own served' authored = .ok r' ∧
        r.adoption.Same r'.adoption := by
  obtain ⟨r, set, resolution, hok, hforward, hmap, hon, hres, hmade, hevents⟩ :=
    classifyRelation_ok hcf hown hserved hroom authored
  refine ⟨r, hok, hforward, hmap, ?_⟩
  intro served' hperm
  have hserved' : preimagesOf served' ⊆ seen := by
    rwa [preimagesOf_perm hperm]
  have hroom' : served'.length ≤ vecMax := by
    rwa [← hperm.length_eq]
  obtain ⟨r', set', resolution', hok', -, -, hon', hres', hmade', hevents'⟩ :=
    classifyRelation_ok hcf hown hserved' hroom' authored
  refine ⟨r', hok', ?_⟩
  have hsame : eventsOf set = eventsOf set' := by
    ext x
    rw [hevents, hevents', candidateEvents_perm hcf hzero hserved hperm]
  -- Sets with the same events resolve alike.
  have htop : SameTop ((bookOf C seen identifier).branches set)
      ((bookOf C seen identifier).branches set') := by
    rw [branches_eq hsame]
    exact SameTop.refl _
  have heq := Book.resolveSet_congr hon hon' htop
  rw [hres, hres', Except.ok.injEq] at heq
  exact hmade.same hon hon' (heq ▸ hmade')

end World

end Entry

section Sample

/-- A recovery of the sample inception that declares its root lost. -/
def sampleLost : EventPreimage :=
  { sampleRecovery 4 5 with
    standingRoot := some .lost
    signerGroups := [⟨[0], [.raw]⟩, ⟨[0], [.raw]⟩] }

def sampleLostUnits : List Bytes := [sampleUnit sampleLost 2, sampleUnit sampleInception 1]

/-- A device that holds the inception is served a `{Lost}` it did not author: it withholds
the event and keeps its own log. -/
theorem classifyRelation_only_forward_sample :
    ((classifyRelation sampleCrypto sampleChain sampleLostUnits []).toOption.map
      (fun r => (r.readings.map Reading.relation, r.adoption)) =
        some ([.extending .withheld], .keep)) ∧
    ∃ r, classifyRelation sampleCrypto sampleChain sampleLostUnits [] = .ok r ∧
      MovesForward sampleChain [] r := by
  obtain ⟨hcf, hzero⟩ : CollisionFree sampleCrypto (preimagesOf sampleLostUnits) ∧
      ∀ x ∈ preimagesOf sampleLostUnits, sampleCrypto.sha256 x ≠ 0 :=
    world_of_hashes (by decide +kernel)
  have hown : ValidIn sampleCrypto (preimagesOf sampleLostUnits) sampleIdentifier sampleChain := by
    refine ⟨[sampleAccepted], sample_builds, ?_⟩
    intro a ha
    rw [List.mem_singleton.mp ha, mem_preimagesOf]
    decide +kernel
  obtain ⟨r, hok, hforward, -, -⟩ := classifyRelation_only_forward hcf hzero hown subset_rfl
    (by decide) []
  exact ⟨by decide +kernel, r, hok, hforward⟩

end Sample

end ScpCore.Kel
