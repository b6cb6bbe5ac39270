import ScpCore.KelRank

/-! The chains of one identifier as branches of one tree of digests. A book
fixes, for each event digest, its rank label and the path of digests down to it;
a chain on the book agrees with it, and every comparison of two chains on a
book is then a comparison of digest lists. -/

namespace ScpCore.Kel

/-- The rank a suffix takes from this event where it is the first to reveal. -/
def ChainEvent.label (e : ChainEvent) : ForkRank :=
  if e.kind.isRevealAuthorized then (if e.revealRootCosigned then .rank1 else .rank2) else .rank3

structure Book where
  root : Digest
  label : Digest → ForkRank
  path : Digest → List Digest

/-- The chain's events are those the book has for their digests. -/
structure OnBook (b : Book) (c : ValidatedChain) : Prop where
  inception : c.inception.digest = b.root
  sequence : ∀ (i : ℕ) (e : ChainEvent), c.events[i]? = some e → e.sequence = i
  label : ∀ e ∈ c.events, b.label e.digest = e.label
  path : ∀ (i : ℕ) (e : ChainEvent), c.events[i]? = some e → b.path e.digest = c.eventDigests.take (i+1)
  room : c.len ≤ u64Max

namespace ValidatedChain
variable (c d : ValidatedChain)

@[simp] theorem length_events : c.events.length = c.len := rfl

@[simp] theorem length_eventDigests : c.eventDigests.length = c.len := by
  simp [eventDigests]

theorem len_pos : 0 < c.len := Nat.succ_pos _

theorem head_eq : c.events.getLast? = some c.head := by
  unfold events head
  rw [List.getLast?_cons]

theorem headDigest_eq : c.eventDigests.getLast? = some c.headDigest := by
  rw [eventDigests, List.getLast?_map, head_eq]
  rfl

theorem getElem?_head : c.events[c.len-1]? = some c.head := by
  rw [← head_eq, List.getLast?_eq_getElem?]
  rfl

theorem headDigest_mem : c.headDigest ∈ c.eventDigests :=
  List.mem_of_getLast? c.headDigest_eq

theorem sharedPrefixLen_eq :
    c.sharedPrefixLen d = sharedLen c.eventDigests d.eventDigests := by
  have h : ∀ es fs : List ChainEvent,
      ((es.zip fs).takeWhile (fun t => t.1.digest = t.2.digest)).length =
        sharedLen (es.map (·.digest)) (fs.map (·.digest)) := by
    intro es
    induction es with
    | nil => simp
    | cons e es ih =>
      intro fs
      cases fs with
      | nil => simp
      | cons f fs =>
        by_cases hd : e.digest = f.digest
        · simp [sharedLen_cons, hd, ih fs]
        · simp [sharedLen_cons, hd]
  exact h c.events d.events

end ValidatedChain

theorem rankPast_eq_firstLabel (c : ValidatedChain) (n : ℕ) :
    rankPast c n = firstLabel ChainEvent.label (c.events.drop n) := by
  unfold rankPast
  induction c.events.drop n with
  | nil => rfl
  | cons e es ih =>
    by_cases hr : e.kind.isRevealAuthorized = true
    · have hl : e.label ≠ ⊤ := by
        simp only [ChainEvent.label, hr, if_true, ForkRank.top_eq]
        split_ifs <;> simp
      simp only [List.find?_cons, hr, firstLabel, if_neg hl]
      simp only [ChainEvent.label, hr, if_true]
    · have hl : e.label = ⊤ := by
        simp only [ChainEvent.label, hr, ForkRank.top_eq]
        rfl
      simp only [List.find?_cons, hr, firstLabel, if_pos hl, ih]

namespace Book
variable (b : Book)

/-- A chain as a branch of the book's tree. -/
def branch (c : ValidatedChain) : Branch b.label := ⟨c.eventDigests⟩

@[simp] theorem branch_elements (c : ValidatedChain) : (b.branch c).elements = c.eventDigests := rfl

/-- The divergence of two digest lists that fork. -/
def divergence (x y : List Digest) : Divergence :=
  let n := sharedLen x y
  ⟨((x.take n).getLast?).getD b.root, n, firstLabel b.label (x.drop n), firstLabel b.label (y.drop n)⟩

/-- The pairing of two digest lists. -/
def pairing (x y : List Digest) : ChainPairing :=
  if x = y then .identical
  else if x <+: y then .leftPrefixOfRight
  else if y <+: x then .rightPrefixOfLeft
  else .diverged (b.divergence x y)

end Book

namespace OnBook
variable {b : Book} {c d : ValidatedChain}

theorem rankPast_eq (hc : OnBook b c) (n : ℕ) :
    rankPast c n = firstLabel b.label (c.eventDigests.drop n) := by
  rw [rankPast_eq_firstLabel, ValidatedChain.eventDigests, ← List.map_drop]
  have hsub : ∀ e ∈ c.events.drop n, b.label e.digest = e.label :=
    fun e he => hc.label e (List.mem_of_mem_drop he)
  generalize c.events.drop n = suffix at hsub
  induction suffix with
  | nil => rfl
  | cons e es ih =>
    have he := hsub e List.mem_cons_self
    have ih' := ih (fun f hf => hsub f (List.mem_cons_of_mem e hf))
    simp only [firstLabel, List.map_cons, he, ih']

theorem shared_pos (hc : OnBook b c) (hd : OnBook b d) :
    0 < sharedLen c.eventDigests d.eventDigests := by
  have h : c.inception.digest = d.inception.digest := by rw [hc.inception, hd.inception]
  simp [ValidatedChain.eventDigests, ValidatedChain.events, sharedLen_cons, h]

theorem headSequence_eq (hc : OnBook b c) : c.headSequence = c.len-1 :=
  hc.sequence _ _ c.getElem?_head

theorem path_head (hc : OnBook b c) : b.path c.headDigest = c.eventDigests := by
  have h := hc.path _ _ c.getElem?_head
  have hl := c.len_pos
  rwa [Nat.sub_add_cancel hl, ← c.length_eventDigests, List.take_length] at h

/-- Chains on one book with one head digest hold the same events. -/
theorem eq_of_head (hc : OnBook b c) (hd : OnBook b d) (h : c.headDigest = d.headDigest) :
    c.eventDigests = d.eventDigests := by
  rw [← hc.path_head, ← hd.path_head, h]

/-- A chain whose head is an event of another is a prefix of it. -/
theorem prefix_of_mem (hc : OnBook b c) (hd : OnBook b d) (h : c.headDigest ∈ d.eventDigests) :
    c.eventDigests <+: d.eventDigests := by
  obtain ⟨e, he, hdig⟩ := List.mem_map.mp h
  obtain ⟨i, hi⟩ := List.mem_iff_getElem?.mp he
  have hp := hd.path i e hi
  rw [hdig, hc.path_head] at hp
  rw [hp]
  exact List.take_prefix _ _

theorem pairChains_eq (hc : OnBook b c) (hd : OnBook b d) :
    pairChains c d = .ok (b.pairing c.eventDigests d.eventDigests) := by
  have hpos := hc.shared_pos hd
  have hle := sharedLen_le c.eventDigests d.eventDigests
  have hl : sharedLen c.eventDigests d.eventDigests = c.len ↔ c.eventDigests <+: d.eventDigests := by
    rw [← c.length_eventDigests, sharedLen_eq_length_iff]
  have hr : sharedLen c.eventDigests d.eventDigests = d.len ↔ d.eventDigests <+: c.eventDigests := by
    rw [← d.length_eventDigests, sharedLen_comm, sharedLen_eq_length_iff]
  have heq : c.eventDigests = d.eventDigests ↔
      c.eventDigests <+: d.eventDigests ∧ d.eventDigests <+: c.eventDigests := by
    constructor
    · intro h
      rw [h]
      exact ⟨List.prefix_rfl, List.prefix_rfl⟩
    · intro h
      exact h.1.eq_of_length (h.1.length_le.antisymm h.2.length_le)
  rw [c.length_eventDigests] at hle
  have hlt : sharedLen c.eventDigests d.eventDigests-1 < c.events.length := by
    rw [c.length_events]
    omega
  obtain ⟨e, he⟩ : ∃ e, c.events[sharedLen c.eventDigests d.eventDigests-1]? = some e :=
    ⟨_, List.getElem?_eq_getElem hlt⟩
  have hseq := hc.sequence _ _ he
  -- The divergence point is the last shared event, and its sequence gives the shared length.
  have hdig : (c.eventDigests.take (sharedLen c.eventDigests d.eventDigests)).getLast? =
      some e.digest := by
    rw [List.getLast?_take, if_neg hpos.ne', ValidatedChain.eventDigests, List.getElem?_map]
    rw [ValidatedChain.eventDigests] at he
    rw [he]
    rfl
  have hroom := hc.room
  unfold pairChains Book.pairing
  simp only [ValidatedChain.sharedPrefixLen_eq, if_neg hpos.ne', he, hl, hr, heq]
  by_cases h₁ : c.eventDigests <+: d.eventDigests
  · by_cases h₂ : d.eventDigests <+: c.eventDigests <;> simp [h₁, h₂]
  · by_cases h₂ : d.eventDigests <+: c.eventDigests
    · simp [h₁, h₂]
    · have hsat : saturatingAdd e.sequence 1 = sharedLen c.eventDigests d.eventDigests := by
        unfold saturatingAdd
        omega
      simp only [h₁, h₂, if_false, false_and, rankSuffix, if_neg hpos.ne', hc.rankPast_eq,
        hd.rankPast_eq, Book.divergence, hdig, hsat, Option.getD_some]

end OnBook

end ScpCore.Kel
