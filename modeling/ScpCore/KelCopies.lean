import ScpCore.KelBook
import ScpCore.KelRetention

/-! The copies of events a chain carries. Overlaying one chain's copies on
another and cutting a chain at a position both stay on the book, and neither
changes the digests that are left. -/

namespace ScpCore.Kel

namespace ValidatedChain
variable (c l : ValidatedChain)

theorem overlay_getElem? (ms ts : List ChainEvent) (i : ℕ) :
    (overlay ms ts)[i]? =
      if i < sharedLen (ms.map (·.digest)) (ts.map (·.digest)) then ms[i]? else ts[i]? := by
  induction ms generalizing ts i with
  | nil => simp [overlay]
  | cons m ms ih =>
    cases ts with
    | nil => simp [overlay]
    | cons t ts =>
      simp only [overlay, List.map_cons, sharedLen_cons]
      by_cases hd : t.digest = m.digest
      · rw [if_pos hd, if_pos hd.symm]
        cases i with
        | zero => simp
        | succ i => simp [ih ts i]
      · have hd' : ¬ m.digest = t.digest := fun h => hd h.symm
        rw [if_neg hd, if_neg hd', if_neg (Nat.not_lt_zero i)]

theorem extendedBy_events : (c.extendedBy l).events = overlay c.events l.events := by
  unfold extendedBy events
  by_cases hd : l.inception.digest = c.inception.digest
  · rw [if_pos hd, overlay, if_pos hd]
  · rw [if_neg hd, overlay, if_neg hd]

/-- The event of an overlaid chain at a position: the first chain's copy up to
where the two part, the other's own past it. -/
theorem extendedBy_getElem? (i : ℕ) :
    (c.extendedBy l).events[i]? =
      if i < c.sharedPrefixLen l then c.events[i]? else l.events[i]? := by
  rw [extendedBy_events, overlay_getElem?, sharedPrefixLen_eq]
  rfl

@[simp] theorem extendedBy_eventDigests : (c.extendedBy l).eventDigests = l.eventDigests := by
  apply List.ext_getElem?
  intro i
  rw [eventDigests, List.getElem?_map, extendedBy_getElem?, sharedPrefixLen_eq]
  by_cases hi : i < sharedLen c.eventDigests l.eventDigests
  · rw [if_pos hi]
    -- Within the shared prefix the two digests agree.
    have ht := congrArg (·[i]?) (take_sharedLen c.eventDigests l.eventDigests)
    simp only [List.getElem?_take, if_pos hi] at ht
    rw [← ht, eventDigests, List.getElem?_map]
  · rw [if_neg hi, eventDigests, List.getElem?_map]

@[simp] theorem extendedBy_len : (c.extendedBy l).len = l.len := by
  rw [← length_eventDigests, extendedBy_eventDigests, length_eventDigests]

theorem headDigest_eq_of_digests {c d : ValidatedChain} (h : c.eventDigests = d.eventDigests) :
    c.headDigest = d.headDigest := by
  have hc := c.headDigest_eq
  rw [h, d.headDigest_eq, Option.some.injEq] at hc
  exact hc.symm

end ValidatedChain

namespace OnBook
variable {b : Book} {c l : ValidatedChain}

/-- Events of chains on one book with one digest are at one position. -/
theorem index_eq (hc : OnBook b c) (hl : OnBook b l) {i j : ℕ} {e f : ChainEvent}
    (he : c.events[i]? = some e) (hf : l.events[j]? = some f) (hd : e.digest = f.digest) : i = j := by
  have hi := (List.getElem?_eq_some_iff.mp he).1
  have hj := (List.getElem?_eq_some_iff.mp hf).1
  have hp := congrArg List.length (hc.path i e he)
  have hq := congrArg List.length (hl.path j f hf)
  rw [hd, hq, List.length_take, List.length_take, ValidatedChain.length_eventDigests,
    ValidatedChain.length_eventDigests, ← ValidatedChain.length_events,
    ← ValidatedChain.length_events] at hp
  omega

/-- The paths to one event agree, so it lies within the prefix two chains share. -/
theorem lt_shared (hc : OnBook b c) (hl : OnBook b l) {i j : ℕ} {e f : ChainEvent}
    (he : c.events[i]? = some e) (hf : l.events[j]? = some f) (hd : e.digest = f.digest) :
    i < c.sharedPrefixLen l := by
  have hi := (List.getElem?_eq_some_iff.mp he).1
  have hij := hc.index_eq hl he hf hd
  have hp := hc.path i e he
  rw [hd, hl.path j f hf, ← hij] at hp
  rw [ValidatedChain.sharedPrefixLen_eq]
  have hle : i+1 ≤ sharedLen c.eventDigests l.eventDigests := by
    apply le_sharedLen
    · rw [ValidatedChain.length_eventDigests, ← ValidatedChain.length_events]
      omega
    · rw [← hp]
      exact List.take_prefix _ _
  omega

theorem extendedBy (hc : OnBook b c) (hl : OnBook b l) : OnBook b (c.extendedBy l) := by
  -- Each event comes from one of the two chains, at its own position.
  have hfrom : ∀ (i : ℕ) (e : ChainEvent), (c.extendedBy l).events[i]? = some e →
      c.events[i]? = some e ∨ l.events[i]? = some e := by
    intro i e he
    rw [ValidatedChain.extendedBy_getElem?] at he
    split_ifs at he with hi
    · exact Or.inl he
    · exact Or.inr he
  have hdig : ∀ (i : ℕ) (e : ChainEvent), (c.extendedBy l).events[i]? = some e →
      ∃ f, l.events[i]? = some f ∧ f.digest = e.digest := by
    intro i e he
    have hd : l.eventDigests[i]? = some e.digest := by
      rw [← ValidatedChain.extendedBy_eventDigests c l, ValidatedChain.eventDigests,
        List.getElem?_map, he]
      rfl
    rw [ValidatedChain.eventDigests, List.getElem?_map, Option.map_eq_some_iff] at hd
    exact hd
  refine ⟨?_, ?_, ?_, ?_, ?_⟩
  · have h0 : (c.extendedBy l).events[0]? = some (c.extendedBy l).inception := rfl
    obtain ⟨f, hf, hd⟩ := hdig 0 _ h0
    rw [← hd, ← Option.some.inj hf]
    exact hl.inception
  · intro i e he
    rcases hfrom i e he with h | h
    · exact hc.sequence i e h
    · exact hl.sequence i e h
  · intro e he
    obtain ⟨i, hi⟩ := List.mem_iff_getElem?.mp he
    rcases hfrom i e hi with h | h
    · exact hc.label e (List.mem_of_getElem? h)
    · exact hl.label e (List.mem_of_getElem? h)
  · intro i e he
    obtain ⟨f, hf, hd⟩ := hdig i e he
    rw [← hd, hl.path i f hf, ValidatedChain.extendedBy_eventDigests]
  · rw [ValidatedChain.extendedBy_len]
    exact hl.room

/-- A chain cut at a position holds its events up to there. -/
theorem prefixThrough_events (hc : OnBook b c) {position : ℕ} {p : ValidatedChain}
    (hp : c.prefixThrough position = some p) :
    p.events = c.events.take (position+1) ∧ position < c.len := by
  unfold ValidatedChain.prefixThrough at hp
  split_ifs at hp with hlt
  have hpe : p.events = c.inception :: c.later.filter (·.sequence ≤ position) := by
    rw [← Option.some.inj hp]
    rfl
  rw [hc.headSequence_eq] at hlt
  have hpos := c.len_pos
  refine ⟨?_, by omega⟩
  rw [hpe, ValidatedChain.events, List.take_succ_cons, List.cons.injEq]
  refine ⟨rfl, ?_⟩
  -- The events past the inception stand at their sequence, one further on.
  have hseq : ∀ (i : ℕ) (e : ChainEvent), c.later[i]? = some e → e.sequence = i+1 :=
    fun i e he => hc.sequence (i+1) e he
  have hgen : ∀ (es : List ChainEvent) (start : ℕ),
      (∀ (i : ℕ) (e : ChainEvent), es[i]? = some e → e.sequence = start+i+1) →
      es.filter (·.sequence ≤ position) = es.take (position-start) := by
    intro es
    induction es with
    | nil => simp
    | cons e es ih =>
      intro start hs
      have h0 := hs 0 e rfl
      have hrest := ih (start+1) (by
        intro i f hf
        have h1 := hs (i+1) f hf
        omega)
      by_cases hle : e.sequence ≤ position
      · obtain ⟨n, hn⟩ : ∃ n, position-start = n+1 := ⟨position-start-1, by omega⟩
        rw [List.filter_cons_of_pos (by simpa using hle), hrest, hn, List.take_succ_cons,
          show position-(start+1) = n by omega]
      · rw [List.filter_cons_of_neg (by simpa using hle), hrest, show position-start = 0 by omega,
          show position-(start+1) = 0 by omega]
        simp
  have h := hgen c.later 0 (by simpa using hseq)
  rwa [Nat.sub_zero] at h

theorem prefixThrough (hc : OnBook b c) {position : ℕ} {p : ValidatedChain}
    (hp : c.prefixThrough position = some p) :
    OnBook b p ∧ p.eventDigests = c.eventDigests.take (position+1) := by
  obtain ⟨he, hlt⟩ := hc.prefixThrough_events hp
  have hdig : p.eventDigests = c.eventDigests.take (position+1) := by
    rw [ValidatedChain.eventDigests, he, List.map_take]
    rfl
  have hget : ∀ (i : ℕ) (e : ChainEvent), p.events[i]? = some e →
      c.events[i]? = some e ∧ i < position+1 := by
    intro i e hi
    rw [he, List.getElem?_take] at hi
    split_ifs at hi with hlt'
    exact ⟨hi, hlt'⟩
  refine ⟨⟨?_, ?_, ?_, ?_, ?_⟩, hdig⟩
  · have h0 : p.events[0]? = some p.inception := rfl
    have h1 : c.events[0]? = some c.inception := rfl
    have h2 := (hget 0 _ h0).1
    rw [h1, Option.some.injEq] at h2
    rw [← h2]
    exact hc.inception
  · intro i e hi
    exact hc.sequence i e (hget i e hi).1
  · intro e hmem
    obtain ⟨i, hi⟩ := List.mem_iff_getElem?.mp hmem
    exact hc.label e (List.mem_of_getElem? (hget i e hi).1)
  · intro i e hi
    obtain ⟨hci, hlt'⟩ := hget i e hi
    rw [hc.path i e hci, hdig, List.take_take, Nat.min_eq_left (by omega)]
  · have hroom := hc.room
    have hlen : p.len = min (position+1) c.len := by
      rw [← p.length_events, he, List.length_take, c.length_events]
    omega

theorem prefixThrough_isSome (hc : OnBook b c) {position : ℕ} (h : position < c.len) :
    ∃ p, c.prefixThrough position = some p := by
  unfold ValidatedChain.prefixThrough
  rw [hc.headSequence_eq, if_neg (by omega)]
  exact ⟨_, rfl⟩

end OnBook

/-- Two chains carry one copy of every event they share. -/
def SameCopies (c d : ValidatedChain) : Prop :=
  ∀ e ∈ c.events, ∀ f ∈ d.events, e.digest = f.digest → e.unit = f.unit

theorem SameCopies.symm {c d : ValidatedChain} (h : SameCopies c d) : SameCopies d c :=
  fun e he f hf hd => (h f hf e he hd.symm).symm

theorem OnBook.sameCopies {b : Book} {c : ValidatedChain} (hc : OnBook b c) : SameCopies c c := by
  intro e he f hf hd
  obtain ⟨i, hi⟩ := List.mem_iff_getElem?.mp he
  obtain ⟨j, hj⟩ := List.mem_iff_getElem?.mp hf
  have hij := hc.index_eq hc hi hj hd
  rw [hij, hj, Option.some.injEq] at hi
  rw [hi]

end ScpCore.Kel
