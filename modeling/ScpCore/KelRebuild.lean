import ScpCore.KelResolve
import ScpCore.KelCopies
import ScpCore.KelSources

/-! A chain kept with its cached state is the chain its units replay. Cutting a
valid chain at a position gives what building it that far gave, overlaying the
copies of another chain gives what building it from those copies gives, and an
entry of a chain's own units returns that chain and discards nothing. -/

namespace ScpCore.Kel

namespace ValidatedChain

/-- The positions at which the chain has an event past the inception or a map entry. -/
def positions (c : ValidatedChain) : List ℕ :=
  c.later.map (·.sequence) ++ c.installed.map (·.2.2) ++ c.installedCommitments.map (·.2) ++
    c.fixed.map (·.2) ++ c.revealed.map (·.2) ++ c.revealedCommitments.map (·.2)

/-- Nothing of the chain lies past its head's position, so a cut there keeps all of it. -/
theorem prefixThrough_self {c : ValidatedChain} (h : ∀ n ∈ c.positions, n ≤ c.headSequence) :
    c.prefixThrough c.headSequence = some c := by
  simp only [positions, List.mem_append, List.mem_map, or_imp, forall_and, forall_exists_index,
    and_imp, forall_apply_eq_imp_iff₂] at h
  obtain ⟨⟨⟨⟨⟨hlater, hinst⟩, hcomm⟩, hfixed⟩, hrev⟩, hrevc⟩ := h
  unfold prefixThrough
  rw [if_neg (Nat.lt_irrefl _)]
  congr 1
  rw [List.filter_eq_self.mpr (by simpa using hlater), List.filter_eq_self.mpr (by simpa using hinst),
    List.filter_eq_self.mpr (by simpa using hcomm), List.filter_eq_self.mpr (by simpa using hfixed),
    List.filter_eq_self.mpr (by simpa using hrev), List.filter_eq_self.mpr (by simpa using hrevc)]

section Record
variable (C : Crypto) (c : ValidatedChain) (a : Accepted)

/-- A recorded event enters the maps at its own position only. -/
theorem mem_positions_record {n : ℕ} (h : n ∈ (c.record C a).positions) :
    n ∈ c.positions ∨ n = a.event.sequence := by
  have hentry {κ α β : Type} [DecidableEq κ] [LT κ] [DecidableRel (LT.lt : κ → κ → Prop)]
      (m : OrderedMap κ α) (xs : List β) (entry : β → κ × α) (at_ : κ × α → ℕ)
      (hat : ∀ x, at_ (entry x) = a.event.sequence)
      (hn : n ∈ (m.orInsertAll (xs.map entry)).map at_) :
      n ∈ m.map at_ ∨ n = a.event.sequence := by
    obtain ⟨e, he, rfl⟩ := List.mem_map.mp hn
    rcases OrderedMap.mem_of_mem_orInsertAll he with he | he
    · exact .inl (List.mem_map.mpr ⟨e, he, rfl⟩)
    · obtain ⟨x, -, rfl⟩ := List.mem_map.mp he
      exact .inr (hat x)
  simp only [positions, List.mem_append] at h ⊢
  rcases h with ((((h | h) | h) | h) | h) | h
  · exact .inl (by tauto)
  · rcases hentry _ _ _ _ (fun _ => rfl) h with h | h <;> tauto
  · rcases hentry _ _ _ _ (fun _ => rfl) h with h | h <;> tauto
  · rcases hentry _ _ _ _ (fun _ => rfl) h with h | h <;> tauto
  · rcases hentry _ _ _ _ (fun _ => rfl) h with h | h <;> tauto
  · rcases hentry _ _ _ _ (fun _ => rfl) h with h | h <;> tauto

theorem mem_positions_push {n : ℕ} (h : n ∈ (c.push C a).positions) :
    n ∈ c.positions ∨ n = a.event.sequence := by
  rcases mem_positions_record C _ a h with h | h
  · simp only [positions, List.map_append, List.map_cons, List.map_nil, List.mem_append,
      List.mem_singleton] at h ⊢
    tauto
  · exact .inr h

theorem headSequence_push : (c.push C a).headSequence = a.event.sequence := by
  simp [headSequence, head, push, record]

/-- A cut before the new event does not see it. -/
theorem prefixThrough_push {p : ℕ} (hp : p ≤ c.headSequence) (hnew : p < a.event.sequence) :
    (c.push C a).prefixThrough p = c.prefixThrough p := by
  unfold prefixThrough
  rw [headSequence_push, if_neg (by omega), if_neg (by omega)]
  simp only [push, record, Option.some.injEq, ValidatedChain.mk.injEq, true_and]
  refine ⟨?_, ?_, ?_, ?_, ?_, ?_⟩
  · rw [List.filter_append, List.filter_cons_of_neg (by simpa using hnew), List.filter_nil,
      List.append_nil]
  all_goals
    apply OrderedMap.filter_orInsertAll
    intro e he
    obtain ⟨x, -, rfl⟩ := List.mem_map.mp he
    simpa using hnew

end Record

end ValidatedChain

section Cut
variable {C : Crypto} {identifier : Identifier}

/-- Building a chain records nothing past its head. -/
theorem builds_positions {history : List Accepted} {c : ValidatedChain}
    (h : Builds C identifier history c) :
    c.headSequence = c.later.length ∧ ∀ n ∈ c.positions, n ≤ c.headSequence := by
  have hrun := builds_keyStateRun C h
  induction h with
  | @inception bytes a checked =>
    have hseq := (hrun.positions 0 a rfl).sequence
    refine ⟨hseq, ?_⟩
    intro n hn
    rcases ValidatedChain.mem_positions_record C _ a hn with hn | hn
    · simp [ValidatedChain.positions] at hn
    · exact hn.le
  | @push history c bytes a built room checked ih =>
    have hbefore := builds_keyStateRun C built
    obtain ⟨hlen, hpos⟩ := ih hbefore
    have hget : (history ++ [a])[history.length]? = some a := by simp
    have hseq := (hrun.positions _ a hget).sequence
    rw [hbefore.length] at hseq
    have hpush : (c.push C a).headSequence = c.later.length+1 :=
      (ValidatedChain.headSequence_push C c a).trans hseq
    refine ⟨?_, ?_⟩
    · rw [hpush]
      simp [ValidatedChain.push, ValidatedChain.record]
    · intro n hn
      rw [hpush]
      rcases ValidatedChain.mem_positions_push C c a hn with hn | hn
      · have hle := hpos n hn
        omega
      · omega

/-- A built chain cut at a position is the chain built that far. -/
theorem builds_prefixThrough {history : List Accepted} {c : ValidatedChain}
    (h : Builds C identifier history c) {i : ℕ} (hi : i < c.len) :
    ∃ c', Builds C identifier (history.take (i+1)) c' ∧ c.prefixThrough i = some c' := by
  have hlast {history : List Accepted} {c : ValidatedChain} (h : Builds C identifier history c) :
      Builds C identifier (history.take (c.later.length+1)) c ∧
        c.prefixThrough c.later.length = some c := by
    obtain ⟨hseq, hpos⟩ := builds_positions h
    refine ⟨?_, ?_⟩
    · rwa [List.take_of_length_le (by rw [(builds_keyStateRun C h).length])]
    · rw [← hseq]
      exact ValidatedChain.prefixThrough_self hpos
  induction h with
  | @inception bytes a checked =>
    obtain rfl : i = 0 := by
      simpa [ValidatedChain.len, ValidatedChain.fromInception, ValidatedChain.record] using hi
    exact ⟨_, hlast (.inception checked)⟩
  | @push history c bytes a built room checked ih =>
    have hbuilt : Builds C identifier (history ++ [a]) (c.push C a) := .push built room checked
    obtain ⟨hseq, -⟩ := builds_positions built
    obtain ⟨hseq', -⟩ := builds_positions hbuilt
    rw [ValidatedChain.headSequence_push] at hseq'
    have hlen : (c.push C a).later.length = c.len := by
      simp [ValidatedChain.push, ValidatedChain.record, ValidatedChain.len]
    by_cases hlt : i < c.len
    · obtain ⟨c', hb, hcut⟩ := ih hlt
      refine ⟨c', ?_, ?_⟩
      · rwa [List.take_append_of_le_length (by rw [(builds_keyStateRun C built).length]; exact hlt)]
      · have hc : c.len = c.later.length+1 := rfl
        rw [ValidatedChain.prefixThrough_push C c a (by omega) (by omega)]
        exact hcut
    · have hi' : i = (c.push C a).later.length := by
        rw [hlen]
        have hpush : (c.push C a).len = c.len+1 := congrArg (·+1) hlen
        omega
      rw [hi']
      exact ⟨_, hlast hbuilt⟩

theorem ValidIn.prefixThrough {seen : Set Bytes} {c : ValidatedChain}
    (h : ValidIn C seen identifier c) {i : ℕ} (hi : i < c.len) :
    ∃ c', ValidIn C seen identifier c' ∧ c.prefixThrough i = some c' := by
  obtain ⟨history, hb, hs⟩ := h
  obtain ⟨c', hb', hcut⟩ := builds_prefixThrough hb hi
  exact ⟨c', ⟨_, hb', fun a ha => hs a (List.mem_of_mem_take ha)⟩, hcut⟩

/-- A chain cut at a position is valid. -/
theorem ValidIn.cut {seen : Set Bytes} (hcf : CollisionFree C seen) {c p : ValidatedChain}
    (h : ValidIn C seen identifier c) {i : ℕ} (hcut : c.prefixThrough i = some p) :
    ValidIn C seen identifier p := by
  obtain ⟨-, hlt⟩ := (h.onBook hcf).prefixThrough_events hcut
  obtain ⟨c', hc', hcut'⟩ := h.prefixThrough hlt
  rw [hcut, Option.some.injEq] at hcut'
  rwa [hcut']

end Cut

/-- A chain is its bare chain and its units. -/
theorem chain_ext {c d : ValidatedChain} (hstrip : c.strip = d.strip)
    (hunits : c.events.map (·.unit) = d.events.map (·.unit)) : c = d := by
  have hevent {e f : ChainEvent} (hs : e.strip = f.strip) (hu : e.unit = f.unit) : e = f := by
    cases e
    cases f
    simp only [ChainEvent.strip, ChainEvent.mk.injEq] at hs
    simp only at hu
    simp [hs, hu]
  have hlist : ∀ es fs : List ChainEvent, es.map ChainEvent.strip = fs.map ChainEvent.strip →
      es.map (·.unit) = fs.map (·.unit) → es = fs := by
    intro es
    induction es with
    | nil =>
      intro fs hs _
      exact (List.map_eq_nil_iff.mp hs.symm).symm
    | cons e es ih =>
      intro fs hs hu
      cases fs with
      | nil => cases hs
      | cons f fs =>
        rw [List.map_cons, List.map_cons, List.cons.injEq] at hs hu
        rw [hevent hs.1 hu.1, ih fs hs.2 hu.2]
  have hevents : c.events = d.events := by
    apply hlist _ _ _ hunits
    rw [← ValidatedChain.strip_events, hstrip, ValidatedChain.strip_events]
  cases c
  cases d
  simp only [ValidatedChain.strip, ValidatedChain.mk.injEq] at hstrip
  simp only [ValidatedChain.events, List.cons.injEq] at hevents
  simp [hstrip, hevents]

section Overlay
variable {C : Crypto} {seen : Set Bytes} {identifier : Identifier}

/-- One digest is one event, up to the unit that carried it. -/
theorem ValidIn.event_strip (hcf : CollisionFree C seen) {c d : ValidatedChain}
    (hc : ValidIn C seen identifier c) (hd : ValidIn C seen identifier d) {i j : ℕ}
    {e f : ChainEvent} (he : c.events[i]? = some e) (hf : d.events[j]? = some f)
    (hdig : e.digest = f.digest) : e.strip = f.strip := by
  obtain ⟨c', hc', -, rfl⟩ := hc.take_head he
  obtain ⟨d', hd', -, rfl⟩ := hd.take_head hf
  rw [← ValidatedChain.strip_head, ← ValidatedChain.strip_head, hc'.strip_eq hcf hd' hdig]

/-- The copies are all an overlay changes. -/
theorem ValidIn.extendedBy_strip (hcf : CollisionFree C seen) {c l : ValidatedChain}
    (hc : ValidIn C seen identifier c) (hl : ValidIn C seen identifier l) :
    (c.extendedBy l).strip = l.strip := by
  have hevents : (c.extendedBy l).events.map ChainEvent.strip = l.events.map ChainEvent.strip := by
    apply List.ext_getElem?
    intro i
    rw [List.getElem?_map, List.getElem?_map, ValidatedChain.extendedBy_getElem?]
    by_cases hi : i < c.sharedPrefixLen l
    · rw [if_pos hi]
      -- Within the shared prefix both chains have an event there, of one digest.
      have hdig := congrArg (·[i]?) (take_sharedLen c.eventDigests l.eventDigests)
      rw [ValidatedChain.sharedPrefixLen_eq] at hi
      simp only [List.getElem?_take, if_pos hi] at hdig
      simp only [ValidatedChain.eventDigests, List.getElem?_map] at hdig
      cases he : c.events[i]? with
      | none =>
        rw [he, Option.map_none, eq_comm, Option.map_eq_none_iff] at hdig
        rw [hdig]
      | some e =>
        rw [he, Option.map_some, eq_comm, Option.map_eq_some_iff] at hdig
        obtain ⟨f, hf, hfe⟩ := hdig
        rw [hf, Option.map_some, Option.map_some, hc.event_strip hcf hl he hf hfe.symm]
    · rw [if_neg hi]
  have hinception := hc.inception_eq hcf hl
  unfold ValidatedChain.extendedBy at hevents ⊢
  rw [if_pos hinception.symm] at hevents ⊢
  simp only [ValidatedChain.events, List.map_cons, List.cons.injEq] at hevents
  simp only [ValidatedChain.strip, hevents]

/-- An overlay of one more event: the other's own, or all of it in the first
list's copies. -/
theorem overlay_snoc (ms ts : List ChainEvent) (t : ChainEvent) :
    ValidatedChain.overlay ms (ts ++ [t]) = ValidatedChain.overlay ms ts ++ [t] ∨
      (ts.length < ms.length ∧
        ValidatedChain.overlay ms (ts ++ [t]) = ms.take (ts.length+1)) := by
  induction ts generalizing ms with
  | nil =>
    cases ms with
    | nil => exact .inl rfl
    | cons m ms =>
      by_cases hd : t.digest = m.digest
      · right
        simp [ValidatedChain.overlay, hd]
      · left
        simp [ValidatedChain.overlay, hd]
  | cons u ts ih =>
    cases ms with
    | nil => exact .inl rfl
    | cons m ms =>
      by_cases hd : u.digest = m.digest
      · rcases ih ms with h | ⟨hlt, h⟩
        · left
          simp [ValidatedChain.overlay, hd, h]
        · right
          simpa [ValidatedChain.overlay, hd, h] using hlt
      · left
        simp [ValidatedChain.overlay, hd]

/-- A valid chain in a valid chain's copies is valid: each event is checked again
on the bare chain it was checked on. -/
theorem ValidIn.extendedBy (hcf : CollisionFree C seen) {c l : ValidatedChain}
    (hc : ValidIn C seen identifier c) (hl : ValidIn C seen identifier l) :
    ValidIn C seen identifier (c.extendedBy l) := by
  -- Where the overlay is a prefix of `c`, it is the chain that prefix builds.
  have hcut {l : ValidatedChain} (hl : ValidIn C seen identifier l) (hlen : l.len ≤ c.len)
      (hev : (c.extendedBy l).events = c.events.take l.len) :
      ValidIn C seen identifier (c.extendedBy l) := by
    have hpos := l.len_pos
    obtain ⟨c', hc', hev'⟩ := hc.take (show l.len-1 < c.len by omega)
    rw [Nat.sub_add_cancel hpos] at hev'
    have hhead : c'.headDigest = l.headDigest := by
      apply ValidatedChain.headDigest_eq_of_digests
      rw [← c.extendedBy_eventDigests l, ValidatedChain.eventDigests, hev', ← hev]
      rfl
    have heq : c' = c.extendedBy l := by
      apply chain_ext
      · rw [hc'.strip_eq hcf hl hhead, hc.extendedBy_strip hcf hl]
      · rw [hev', hev]
    exact heq ▸ hc'
  obtain ⟨history, hb, hs⟩ := hl
  induction hb with
  | @inception bytes a checked =>
    have hl : ValidIn C seen identifier (.fromInception C identifier a) := ⟨_, .inception checked, hs⟩
    apply hcut hl c.len_pos
    have hdig : a.event.digest = c.inception.digest := hl.inception_eq hcf hc
    rw [ValidatedChain.extendedBy_events]
    change ValidatedChain.overlay (c.inception :: c.later) [a.event] = [c.inception]
    simp [ValidatedChain.overlay, hdig]
  | @push history l bytes a built room checked ih =>
    have hbefore : ∀ x ∈ history, x.preimage ∈ seen := fun x hx => hs x (by simp [hx])
    have hl : ValidIn C seen identifier l := ⟨history, built, hbefore⟩
    have hl' : ValidIn C seen identifier (l.push C a) := ⟨_, .push built room checked, hs⟩
    have hev : (l.push C a).events = l.events ++ [a.event] := rfl
    have hlen : (l.push C a).len = l.len+1 := by
      rw [← ValidatedChain.length_events, hev, List.length_append, l.length_events]
      rfl
    rcases overlay_snoc c.events l.events a.event with hover | ⟨hlt, hover⟩
    · -- The last event is `l`'s own: it passes on the overlaid chain as it did on `l`.
      have hq := ih hbefore
      have hstrip := hc.extendedBy_strip hcf hl
      have hok : checkSuccessor C (c.extendedBy l) bytes .signed = .ok a := by
        rw [← checkSuccessor_strip, hstrip, checkSuccessor_strip]
        exact checked
      have hroom : (c.extendedBy l).later.length < vecMax := by
        have hsame := c.extendedBy_len l
        unfold ValidatedChain.len at hsame
        omega
      have heq : (c.extendedBy l).push C a = c.extendedBy (l.push C a) := by
        apply chain_ext
        · rw [ValidatedChain.strip_push, hstrip, ← ValidatedChain.strip_push,
            hc.extendedBy_strip hcf hl']
        · rw [ValidatedChain.extendedBy_events, hev, hover, ← ValidatedChain.extendedBy_events]
          rfl
      exact heq ▸ hq.push hroom hok (hs a (by simp))
    · apply hcut hl'
      · rw [hlen, ← c.length_events, ← l.length_events]
        omega
      · rw [ValidatedChain.extendedBy_events, hev, hover, hlen, l.length_events]

end Overlay

section Replay
variable {C : Crypto} {seen : Set Bytes} {identifier : Identifier}

/-- The units that carried the chain's events, from the inception to the head. -/
def ValidatedChain.units (c : ValidatedChain) : List Bytes := c.events.map (·.unit)

theorem unit_of_successor {c : ValidatedChain} {u : Bytes} {a : Accepted}
    (h : checkSuccessor C c u .signed = .ok a) : a.event.unit = u := by
  obtain ⟨_, _, _, _, _, _, _, rfl⟩ := checkSuccessor_ok C h
  rfl

theorem unit_of_inception {u : Bytes} {a : Accepted}
    (h : checkInception C u (some identifier) .signed = .ok a) : a.event.unit = u := by
  obtain ⟨_, _, _, _, _, _, _, _, rfl⟩ := checkInception_ok C h
  rfl

/-- A unit carries the event: it is placed by the event's digest, and its preimage
was seen. -/
def Carries (C : Crypto) (seen : Set Bytes) (identifier : Identifier) (e : ChainEvent) : Prop :=
  ∃ fields predecessor, placement C identifier e.unit = .ok (fields, predecessor) ∧
    eventDigestOf C fields = e.digest ∧ signedPreimageOf fields ∈ seen

/-- Every chain units build carries each event in one of them. -/
theorem BuiltFrom.carries {units : List Bytes} {c : ValidatedChain}
    (h : BuiltFrom C identifier units c) :
    ∀ e ∈ c.events, e.unit ∈ units ∧ Carries C (preimagesOf units) identifier e := by
  induction h with
  | @inception u a hu hok =>
    intro e he
    obtain rfl : e = a.event := List.mem_singleton.mp he
    obtain ⟨fields, predecessor, hplace, hdig, -, -⟩ := placement_of_inception hok
    rw [Carries, unit_of_inception hok]
    exact ⟨hu, fields, predecessor, hplace, hdig.symm, preimage_served hu hplace⟩
  | @push c u a _ hu hok ih =>
    intro e he
    have hev : (c.push C a).events = c.events ++ [a.event] := rfl
    rw [hev, List.mem_append, List.mem_singleton] at he
    rcases he with he | rfl
    · exact ih e he
    · obtain ⟨fields, hplace, hdig, -⟩ := placement_of_successor identifier hok
      rw [Carries, unit_of_successor hok]
      exact ⟨hu, fields, _, hplace, hdig.symm, preimage_served hu hplace⟩

/-- A valid chain is built from its own units. -/
theorem ValidIn.builtFrom {c : ValidatedChain} (h : ValidIn C seen identifier c) :
    BuiltFrom C identifier c.units c ∧ preimagesOf c.units ⊆ seen := by
  -- A placed unit adds only its own preimage to those seen.
  have hadd {u fields : Bytes} {predecessor : Option Digest} {units : List Bytes}
      (hplace : placement C identifier u = .ok (fields, predecessor))
      (hsigned : signedPreimageOf fields ∈ seen) (hunits : preimagesOf units ⊆ seen) :
      preimagesOf (units ++ [u]) ⊆ seen := by
    intro signed hs
    obtain ⟨u', hu', fields', hf', rfl⟩ := hs
    rcases List.mem_append.mp hu' with hu' | hu'
    · exact hunits ⟨u', hu', fields', hf', rfl⟩
    · rw [List.mem_singleton.mp hu', (placement_reads hplace).1, Option.some.injEq] at hf'
      rwa [← hf']
  obtain ⟨history, hb, hs⟩ := h
  induction hb with
  | @inception u a hok =>
    have hunits : (ValidatedChain.fromInception C identifier a).units = [u] := by
      change [a.event.unit] = [u]
      rw [unit_of_inception hok]
    rw [hunits]
    obtain ⟨fields, predecessor, hplace, -, hpre, -⟩ := placement_of_inception hok
    refine ⟨.inception (List.mem_singleton_self u) hok, ?_⟩
    have hnil : preimagesOf [] ⊆ seen := by
      intro signed hsigned
      obtain ⟨u', hu', -⟩ := hsigned
      cases hu'
    exact hadd hplace (hpre ▸ hs a (by simp)) hnil
  | @push history c u a built room hok ih =>
    obtain ⟨hbuilt, hsub⟩ := ih (fun x hx => hs x (by simp [hx]))
    have hunits : (c.push C a).units = c.units ++ [u] := by
      change (c.events ++ [a.event]).map (·.unit) = _
      rw [List.map_append, List.map_singleton, unit_of_successor hok]
      rfl
    rw [hunits]
    obtain ⟨fields, hplace, -, hpre⟩ := placement_of_successor identifier hok
    refine ⟨?_, hadd hplace (hpre ▸ hs a (by simp)) hsub⟩
    apply BuiltFrom.push _ (by simp) hok
    exact hbuilt.mono (fun v hv => List.mem_append_left _ hv)

/-- The walk returns at least the chain it descends first. -/
theorem validateEntry_ne_nil {units : List Bytes} {chains : List ValidatedChain}
    {discarded : List Discarded}
    (h : validateEntry C identifier units = ⟨.valid chains, discarded⟩) : chains ≠ [] := by
  have hverdict := congrArg EntryValidation.verdict h
  unfold validateEntry at hverdict
  dsimp only at hverdict
  split at hverdict
  · cases hverdict
  · cases hverdict
    simp [branches]
  · cases hverdict

section Own
variable (hcf : CollisionFree C seen) {c : ValidatedChain} (hc : ValidIn C seen identifier c)
include hcf hc

/-- The unit at a position passes past the chain of the positions before it. -/
theorem ValidIn.next_passes {i : ℕ} {e : ChainEvent} (he : c.events[i+1]? = some e)
    {d : ValidatedChain} (hd : d.strip.eventDigests = c.eventDigests.take (i+1))
    (hvalid : ValidIn C seen identifier d) :
    ∃ a, checkSuccessor C d e.unit .signed = .ok a := by
  obtain ⟨history, hb, hs⟩ := hc
  induction hb with
  | @inception u a hok => simp [ValidatedChain.events, ValidatedChain.fromInception,
      ValidatedChain.record] at he
  | @push history c u a built room hok ih =>
    have hbefore : ∀ x ∈ history, x.preimage ∈ seen := fun x hx => hs x (by simp [hx])
    have hev : (c.push C a).events = c.events ++ [a.event] := rfl
    have hdigs : (c.push C a).eventDigests = c.eventDigests ++ [a.event.digest] :=
      eventDigests_push C c a
    have hbound := (List.getElem?_eq_some_iff.mp he).1
    rw [hev, List.length_append, c.length_events, List.length_singleton] at hbound
    rw [hdigs, List.take_append_of_le_length (by rw [c.length_eventDigests]; omega)] at hd
    by_cases hi : i+1 < c.len
    · rw [hev, List.getElem?_append_left (by rwa [c.length_events])] at he
      exact ih he hd hbefore
    · -- The last unit passed past `c` itself, which `d` is up to the copies.
      obtain rfl : e = a.event := by
        rw [hev, List.getElem?_append_right (by rw [c.length_events]; omega)] at he
        have hz : i+1-c.events.length = 0 := by
          rw [c.length_events]
          omega
        rw [hz] at he
        exact (Option.some.inj he).symm
      rw [List.take_of_length_le (by rw [c.length_eventDigests]; omega),
        ValidatedChain.strip_eventDigests] at hd
      have hstrip := hvalid.strip_eq hcf ⟨history, built, hbefore⟩
        (ValidatedChain.headDigest_eq_of_digests hd)
      refine ⟨a, ?_⟩
      rw [unit_of_successor hok, ← checkSuccessor_strip, hstrip, checkSuccessor_strip]
      exact hok

end Own

section Family
variable (hcf : CollisionFree C seen) {family : List ValidatedChain} (hvalid : ∀ c ∈ family, ValidIn C seen identifier c)
  {units : List Bytes} (hunits : ∀ u, u ∈ units ↔ ∃ c ∈ family, u ∈ c.units)
include hvalid hunits

theorem family_preimages : preimagesOf units ⊆ seen := by
  intro signed hsigned
  obtain ⟨u, hu, hfields⟩ := hsigned
  obtain ⟨c, hc, huc⟩ := (hunits u).mp hu
  exact (hvalid c hc).builtFrom.2 ⟨u, huc, hfields⟩

theorem family_built {c : ValidatedChain} (hc : c ∈ family) : BuiltFrom C identifier units c :=
  (hvalid c hc).builtFrom.1.mono (fun u hu => (hunits u).mpr ⟨c, hc, hu⟩)

/-- The event a chain carries in a unit of the family has the digest the family
carries it by. -/
theorem family_event {l : ValidatedChain} (hl : BuiltFrom C identifier units l) {e : ChainEvent}
    (he : e ∈ l.events) : ∃ c ∈ family, ∃ f ∈ c.events, f.digest = e.digest ∧ f.unit = e.unit := by
  obtain ⟨hunit, fields, predecessor, hplace, hdig, -⟩ := hl.carries e he
  obtain ⟨c, hc, huc⟩ := (hunits e.unit).mp hunit
  obtain ⟨f, hf, heq⟩ := List.mem_map.mp huc
  obtain ⟨-, fields', predecessor', hplace', hdig', -⟩ := (hvalid c hc).builtFrom.1.carries f hf
  rw [heq, hplace, Except.ok.injEq, Prod.mk.injEq] at hplace'
  exact ⟨c, hc, f, hf, by rw [← hdig', ← hplace'.1, hdig], heq⟩

include hcf

/-- The chains that a family's units build are valid. -/
theorem family_validIn {l : ValidatedChain} (hl : BuiltFrom C identifier units l) :
    ValidIn C seen identifier l := by
  have hseen := family_preimages hvalid hunits
  induction hl with
  | @inception u a hu hok => exact (BuiltFrom.inception hu hok).validIn hseen (Nat.zero_le _)
  | @push l u a hbuilt hu hok ih =>
    apply ih.push _ hok (hseen (successor_preimage hu hok))
    -- The unit stands past the inception of a chain of the family, as far on as here.
    obtain ⟨c, hc, huc⟩ := (hunits u).mp hu
    obtain ⟨e, he, rfl⟩ := List.mem_map.mp huc
    obtain ⟨i, hi⟩ := List.mem_iff_getElem?.mp he
    obtain ⟨fields, hplace, -, hpre⟩ := placement_of_successor identifier hok
    cases i with
    | zero =>
      exfalso
      obtain ⟨c', hc', hev⟩ := (hvalid c hc).take c.len_pos
      obtain ⟨u', a', hu', hok'⟩ := hc'.builtFrom.1.inception_served
      have heu : u' = e.unit := by
        rw [ValidatedChain.units, hev, ValidatedChain.events] at hu'
        rw [ValidatedChain.events, List.getElem?_cons_zero, Option.some.injEq] at hi
        simpa [hi] using hu'
      rw [heu] at hok'
      obtain ⟨fields', predecessor, hplace', -, hpre', -⟩ := placement_of_inception hok'
      rw [hplace, Except.ok.injEq, Prod.mk.injEq] at hplace'
      exact inception_ne_successor hok' hok (by rw [hpre, hpre', hplace'.1])
    | succ i =>
      have hlt : i+1 < c.len := by
        rw [← c.length_events]
        exact (List.getElem?_eq_some_iff.mp hi).1
      obtain ⟨c', hc', hev⟩ := (hvalid c hc).take (show i < c.len by omega)
      have hdigs : c'.eventDigests = c.eventDigests.take (i+1) := by
        rw [ValidatedChain.eventDigests, hev, List.map_take]
        rfl
      obtain ⟨a', ha'⟩ := (hvalid c hc).next_passes hcf hi
        (by rw [ValidatedChain.strip_eventDigests, hdigs]) hc'
      obtain ⟨fields', hplace', -, -⟩ := placement_of_successor identifier ha'
      rw [hplace, Except.ok.injEq, Prod.mk.injEq, Option.some.injEq] at hplace'
      have hsame := (ih.onBook hcf).eq_of_head (hc'.onBook hcf) hplace'.2
      have hlen : l.len = i+1 := by
        rw [← l.length_eventDigests, hsame, hdigs, List.length_take, c.length_eventDigests]
        omega
      have hle := (hvalid c hc).later_le
      unfold ValidatedChain.len at hlen hlt
      omega

/-- The chains that a family's units build lead chains of the family. -/
theorem family_leads {l : ValidatedChain} (hl : BuiltFrom C identifier units l) :
    ∃ c ∈ family, l.eventDigests <+: c.eventDigests := by
  obtain ⟨c, hc, f, hf, hdig, -⟩ :=
    family_event hvalid hunits hl (List.mem_of_getLast? l.head_eq)
  refine ⟨c, hc, ((family_validIn hcf hvalid hunits hl).onBook hcf).prefix_of_mem
    ((hvalid c hc).onBook hcf) ?_⟩
  rw [ValidatedChain.headDigest, ← hdig]
  exact List.mem_map.mpr ⟨f, hf, rfl⟩

/-- Of a family in one copy of each event, a chain with the digests of one is that one. -/
theorem family_eq (hcopies : ∀ c ∈ family, ∀ d ∈ family, SameCopies c d) {l c : ValidatedChain}
    (hl : BuiltFrom C identifier units l) (hc : c ∈ family)
    (hdigs : l.eventDigests = c.eventDigests) : l = c := by
  apply chain_ext ((family_validIn hcf hvalid hunits hl).strip_eq hcf (hvalid c hc)
    (ValidatedChain.headDigest_eq_of_digests hdigs))
  apply List.ext_getElem?
  intro i
  rw [List.getElem?_map, List.getElem?_map]
  have hat : (l.events[i]?).map (·.digest) = (c.events[i]?).map (·.digest) := by
    rw [← List.getElem?_map, ← List.getElem?_map]
    exact congrArg (·[i]?) hdigs
  cases he : l.events[i]? with
  | none =>
    rw [he, Option.map_none, eq_comm, Option.map_eq_none_iff] at hat
    rw [hat]
  | some e =>
    rw [he, Option.map_some, eq_comm, Option.map_eq_some_iff] at hat
    obtain ⟨f, hf, hfe⟩ := hat
    obtain ⟨d, hd, g, hg, hge, hunit⟩ :=
      family_event hvalid hunits hl (List.mem_of_getElem? he)
    have hsame := hcopies d hd c hc g hg f (List.mem_of_getElem? hf) (by rw [hge, hfe])
    rw [hf, Option.map_some, Option.map_some, ← hunit, hsame]

/-- The units of a family in one copy of each event validate to chains of the
family, each of which leads one of them, and nothing is discarded. -/
theorem family_revalidates (hcopies : ∀ c ∈ family, ∀ d ∈ family, SameCopies c d)
    (hzero : ∀ signed ∈ seen, C.sha256 signed ≠ 0) (hne : family ≠ []) :
    ∃ chains, validateEntry C identifier units = ⟨.valid chains, []⟩ ∧
      (∀ l ∈ chains, l ∈ family) ∧ chains.Pairwise Apart ∧
      ∀ c ∈ family, ∃ l ∈ chains, c.eventDigests <+: l.eventDigests := by
  have hseen := family_preimages hvalid hunits
  have hcf' := hcf.mono hseen
  have hzero' : ∀ signed ∈ preimagesOf units, C.sha256 signed ≠ 0 :=
    fun signed hs => hzero signed (hseen hs)
  have hasm : Assembled C identifier units (Assembly.new C identifier units) := assembled_new units
  obtain ⟨c₀, hc₀⟩ := List.exists_mem_of_ne_nil family hne
  obtain ⟨u, a, hu, hok⟩ := (family_built hvalid hunits hc₀).inception_served
  obtain ⟨i, g, a', hroot⟩ := rooted_of_inception hasm hcf' hu hok
  obtain ⟨chains, discarded, heq, hapart, hreports, -, hmem⟩ := hroot.returns hcf'
  obtain ⟨⟨_, _, _, _, hfrom⟩, -, -, -, hmax, -⟩ := validateEntry_accounts C identifier units hcf'
    hzero' chains discarded heq
  -- A chain returned that a longer one of the family leads would take its next unit.
  have hall : ∀ l ∈ chains, l ∈ family := by
    intro l hl
    have hbuilt := (hfrom l hl).2
    obtain ⟨c, hc, hpre⟩ := family_leads hcf hvalid hunits hbuilt
    have hdigs : l.eventDigests = c.eventDigests := by
      rw [List.prefix_iff_eq_take, l.length_eventDigests] at hpre
      by_cases hlt : l.len < c.len
      · exfalso
        have hget : c.events[l.len]? = some c.events[l.len] := List.getElem?_eq_getElem hlt
        have hpos : l.len-1+1 = l.len := Nat.sub_add_cancel l.len_pos
        obtain ⟨b, hb⟩ := (hvalid c hc).next_passes hcf (i := l.len-1) (by rw [hpos]; exact hget)
          (by rw [hpos, ValidatedChain.strip_eventDigests]; exact hpre)
          (family_validIn hcf hvalid hunits hbuilt)
        have hunit : c.events[l.len].unit ∈ units :=
          (hunits _).mpr ⟨c, hc, List.mem_map.mpr ⟨_, List.getElem_mem _, rfl⟩⟩
        obtain ⟨defect, hdefect⟩ := hmax l hl _ hunit
        rw [ValidatedChain.extend, hb] at hdefect
        cases hdefect
      · rw [hpre, List.take_of_length_le]
        rw [c.length_eventDigests]
        omega
    rw [family_eq hcf hvalid hunits hcopies hbuilt hc hdigs]
    exact hc
  have hcovers : ∀ c ∈ family, ∃ l ∈ chains, c.eventDigests <+: l.eventDigests := by
    intro c hc
    -- Of the chains that `c` leads, no unit extends the longest.
    obtain ⟨d, hd, hlongest⟩ : ∃ d ∈ family.filter (fun d => c.eventDigests <+: d.eventDigests),
        ∀ d' ∈ family.filter (fun d => c.eventDigests <+: d.eventDigests), d'.len ≤ d.len := by
      have hin : c ∈ family.filter (fun d => c.eventDigests <+: d.eventDigests) := by
        simp [hc]
      obtain ⟨d, hd, hle⟩ := Finset.exists_max_image
        (family.filter (fun d => c.eventDigests <+: d.eventDigests)).toFinset
        ValidatedChain.len ⟨c, by simpa using hin⟩
      exact ⟨d, by simpa using hd, fun d' hd' => hle d' (by simpa using hd')⟩
    obtain ⟨hdf, hcd⟩ := List.mem_filter.mp hd
    have hcd : c.eventDigests <+: d.eventDigests := by simpa using hcd
    have hbuilt := family_built hvalid hunits hdf
    have hstuck : ∀ u ∈ units, ∀ b, checkSuccessor C d u .signed ≠ .ok b := by
      intro u hu b hb
      obtain ⟨d', hd', hpre⟩ := family_leads hcf hvalid hunits (hbuilt.push hu hb)
      rw [eventDigests_push] at hpre
      have hlen := hpre.length_le
      rw [List.length_append, List.length_singleton, d.length_eventDigests,
        d'.length_eventDigests] at hlen
      have hin : d' ∈ family.filter (fun d => c.eventDigests <+: d.eventDigests) := by
        apply List.mem_filter.mpr
        refine ⟨hd', ?_⟩
        simpa using hcd.trans ((List.prefix_append _ _).trans hpre)
      have hle := hlongest d' hin
      omega
    have hstrip := (hroot.mem_strips hcf' hzero' hmem d.strip).mpr ⟨d, hbuilt, rfl, hstuck⟩
    obtain ⟨l, hl, hls⟩ := List.mem_map.mp hstrip
    refine ⟨l, hl, ?_⟩
    have hdigs := congrArg ValidatedChain.eventDigests hls
    rw [ValidatedChain.strip_eventDigests, ValidatedChain.strip_eventDigests] at hdigs
    rwa [hdigs]
  have hnone : discarded = [] := by
    rw [← List.map_eq_nil_iff, hreports, List.filter_eq_nil_iff]
    intro n hn
    have hlt : n < units.length := List.mem_range.mp hn
    obtain ⟨c, hc, huc⟩ := (hunits units[n]).mp (List.getElem_mem hlt)
    obtain ⟨e, he, heu⟩ := List.mem_map.mp huc
    obtain ⟨-, fields, predecessor, hplace, hdig, -⟩ := (hvalid c hc).builtFrom.1.carries e he
    obtain ⟨l, hl, hpre⟩ := hcovers c hc
    have hdigest : e.digest ∈ l.eventDigests := hpre.subset (List.mem_map.mpr ⟨e, he, rfl⟩)
    rw [heu] at hplace
    have hget : units[n]? = some units[n] := List.getElem?_eq_getElem hlt
    intro hreported
    simp only [reported, hget, Option.map_some, digestOf_ok hplace, hdig, Bool.and_eq_true,
      List.all_eq_true] at hreported
    simpa [hdigest] using hreported.2 l hl
  exact ⟨chains, by rw [heq, hnone], hall, hapart, hcovers⟩

end Family

/-- An entry of a valid chain's units returns the chain and discards nothing. -/
theorem ValidIn.revalidates (hcf : CollisionFree C seen) {c : ValidatedChain}
    (hc : ValidIn C seen identifier c) (hzero : ∀ signed ∈ seen, C.sha256 signed ≠ 0) :
    validateEntry C identifier c.units = ⟨.valid [c], []⟩ := by
  have hcopies : ∀ d ∈ [c], ∀ d' ∈ [c], SameCopies d d' := by
    intro d hd d' hd'
    rw [List.mem_singleton.mp hd, List.mem_singleton.mp hd']
    exact (hc.onBook hcf).sameCopies
  have hunits : ∀ u, u ∈ c.units ↔ ∃ d ∈ [c], u ∈ d.units := by simp
  obtain ⟨chains, heq, hall, hapart, -⟩ := family_revalidates hcf (by simpa using hc) hunits
    hcopies hzero (List.cons_ne_nil c [])
  have hone : chains = [c] := by
    cases chains with
    | nil => exact absurd rfl (validateEntry_ne_nil heq)
    | cons l rest =>
      cases rest with
      | nil => rw [List.mem_singleton.mp (hall l (by simp))]
      | cons l' rest =>
        have hpair := (List.pairwise_cons.mp hapart).1 l' (by simp)
        rw [List.mem_singleton.mp (hall l (by simp)),
          List.mem_singleton.mp (hall l' (by simp))] at hpair
        exact absurd List.prefix_rfl hpair.1
  rw [heq, hone]

variable (C identifier) in
/-- The units of a chain validated in order: the first as the inception, each later one
as the next position. -/
def validateUnits : List Bytes → Option ValidatedChain
  | [] => none
  | first :: rest => do
    let accepted ← (checkInception C first (some identifier) .signed).toOption
    rest.foldlM (fun chain unit => (chain.extend C unit).toOption) (.fromInception C identifier accepted)

theorem validateUnits_snoc {units : List Bytes} (hne : units ≠ []) (u : Bytes) :
    validateUnits C identifier (units ++ [u]) =
      (validateUnits C identifier units).bind (fun chain => (chain.extend C u).toOption) := by
  cases units with
  | nil => exact absurd rfl hne
  | cons first rest =>
    simp only [validateUnits, List.cons_append]
    cases (checkInception C first (some identifier) .signed).toOption with
    | none => rfl
    | some accepted =>
      simp only [Option.bind_eq_bind, Option.bind_some, List.foldlM_append, List.foldlM_cons,
        List.foldlM_nil, Option.pure_def, Option.bind_fun_some]

theorem builds_units {history : List Accepted} {c : ValidatedChain}
    (h : Builds C identifier history c) : c.units = history.map (·.event.unit) := by
  rw [ValidatedChain.units, (builds_recorded C h).events, List.map_map]
  rfl

/-- A chain is what its own units validate to. -/
theorem validateUnits_of_builds {history : List Accepted} {c : ValidatedChain}
    (h : Builds C identifier history c) : validateUnits C identifier c.units = some c := by
  induction h with
  | @inception u a hok =>
    have hunits : (ValidatedChain.fromInception C identifier a).units = [u] := by
      rw [builds_units (.inception hok), List.map_singleton, unit_of_inception hok]
    rw [hunits, validateUnits, hok]
    rfl
  | @push history c u a built room hok ih =>
    have hunits : (c.push C a).units = c.units ++ [u] := by
      rw [builds_units (.push built room hok), builds_units built, List.map_append,
        List.map_singleton, unit_of_successor hok]
    rw [hunits, validateUnits_snoc (by simp [ValidatedChain.units, ValidatedChain.events]), ih,
      Option.bind_some, ValidatedChain.extend, hok]
    rfl

/-- Truncating a chain equals never having extended it: a prefix is the chain that its
first units validate to, in order or as an entry, and extends as that one does. -/
theorem prefix_eq_validated_units {history : List Accepted} {c : ValidatedChain}
    (h : Builds C identifier history c) (p : ℕ) (hp : p < c.len) :
    ∃ c', c.prefixThrough p = some c' ∧
      (∃ fresh, validateUnits C identifier (c.units.take (p+1)) = some fresh ∧ c' = fresh ∧
        ∀ u, c'.extend C u = fresh.extend C u) ∧
      ∀ seen, CollisionFree C seen → (∀ signed ∈ seen, C.sha256 signed ≠ 0) →
        (∀ a ∈ history, a.preimage ∈ seen) →
          validateEntry C identifier (c.units.take (p+1)) = ⟨.valid [c'], []⟩ := by
  obtain ⟨c', hb, hcut⟩ := builds_prefixThrough h hp
  have hunits : c.units.take (p+1) = c'.units := by
    rw [builds_units h, builds_units hb, List.map_take]
  refine ⟨c', hcut, ⟨c', ?_, rfl, fun u => rfl⟩, ?_⟩
  · rw [hunits]
    exact validateUnits_of_builds hb
  · intro seen hcf hzero hseen
    have hvalid : ValidIn C seen identifier c' :=
      ⟨_, hb, fun a ha => hseen a (List.mem_of_mem_take ha)⟩
    rw [hunits]
    exact hvalid.revalidates hcf hzero

/-- The recovered chain cut at its inception. -/
theorem prefix_eq_validated_units_sample :
    ∃ c', (sampleChain.push sampleCrypto sampleRecovered).prefixThrough 0 = some c' ∧
      validateUnits sampleCrypto sampleIdentifier
        ((sampleChain.push sampleCrypto sampleRecovered).units.take 1) = some c' := by
  obtain ⟨c', hcut, ⟨fresh, hfresh, rfl, -⟩, -⟩ :=
    prefix_eq_validated_units sampleRecovered_builds 0 (by decide)
  exact ⟨c', hcut, hfresh⟩

end Replay

end ScpCore.Kel
