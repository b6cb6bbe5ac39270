import ScpCore.KelKeyState
import ScpCore.KelBook

/-! The chains the validator builds from a set of preimages among which the hash
has no collision. Two of them with one head digest hold the same events, up to
the unit that carried each, so they lie on one book. -/

namespace ScpCore.Kel

/-- A chain event without the copy of the unit that carried it. -/
def ChainEvent.strip (e : ChainEvent) : ChainEvent := { e with unit := [] }

def Accepted.strip (a : Accepted) : Accepted := { a with event := a.event.strip }

namespace ValidatedChain
variable (C : Crypto) (c : ValidatedChain)

/-- The chain without the copies of its units. -/
def strip : ValidatedChain :=
  { c with inception := c.inception.strip, later := c.later.map ChainEvent.strip }

@[simp] theorem strip_events : c.strip.events = c.events.map ChainEvent.strip := rfl

@[simp] theorem strip_head : c.strip.head = c.head.strip := by
  unfold head strip
  rw [List.getLast?_map]
  cases c.later.getLast? <;> rfl

@[simp] theorem strip_headDigest : c.strip.headDigest = c.headDigest := by
  rw [headDigest, strip_head]
  rfl

@[simp] theorem strip_eventDigests : c.strip.eventDigests = c.eventDigests := by
  rw [eventDigests, strip_events, List.map_map]
  rfl

@[simp] theorem strip_nextPosition : c.strip.nextPosition = c.nextPosition := by
  rw [nextPosition, headSequence, strip_head]
  rfl

theorem strip_record (a : Accepted) : (c.record C a).strip = c.strip.record C a.strip := rfl

theorem strip_push (a : Accepted) : (c.push C a).strip = c.strip.push C a.strip := by
  unfold push
  rw [strip_record]
  simp only [strip, List.map_append, List.map_cons, List.map_nil]
  rfl

end ValidatedChain

section Strip
variable (C : Crypto) (c : ValidatedChain)

theorem checkLink_strip (p : EventPreimage) : checkLink c.strip p = checkLink c p := by
  simp only [checkLink, ValidatedChain.strip_head, ValidatedChain.strip_nextPosition]
  rfl

theorem groupKeySet_strip (p : EventPreimage) (root : Option InstalledRootSet)
    (group : HeaderGroup) :
    groupKeySet C (.next c.strip) p root group = groupKeySet C (.next c) p root group := by
  cases hr : group.role <;> simp only [groupKeySet, hr, ValidatedChain.strip_head] <;> rfl

theorem checkGroups_strip (header : EventHeader) (p : EventPreimage)
    (root : Option InstalledRootSet) :
    checkGroups C (.next c.strip) header p root = checkGroups C (.next c) header p root := by
  simp only [checkGroups, groupKeySet_strip]

theorem successorKeyList_strip (kind : EventKind) (snapshot : KeyStateSnapshot) :
    successorKeyList c.strip kind snapshot = successorKeyList c kind snapshot := by
  unfold successorKeyList
  simp only [ValidatedChain.strip_head]
  rfl

theorem checkSnapshotRoot_strip (installed : Option InstalledRootSet) (root : InstalledRootSet) :
    checkSnapshotRoot (.next c.strip) installed root =
      checkSnapshotRoot (.next c) installed root := by
  cases installed with
  | none =>
    simp only [checkSnapshotRoot, ValidatedChain.strip_head]
    rfl
  | some installed => rfl

theorem checkSnapshot_strip (p : EventPreimage) (root : Option InstalledRootSet) :
    checkSnapshot (.next c.strip) p root = checkSnapshot (.next c) p root := by
  unfold checkSnapshot
  simp only [checkSnapshotRoot_strip, positionKeyList, successorKeyList_strip]
  rfl

theorem checkContent_strip (header : EventHeader) (p : EventPreimage) (digest : Digest) :
    checkContent C (.next c.strip) header p digest = checkContent C (.next c) header p digest := by
  unfold checkContent
  simp only [Position.chain?, Option.elim_some, Option.map_some, checkLink_strip,
    ValidatedChain.strip_head, checkGroups_strip, checkSnapshot_strip]
  rfl

theorem anchoringKeySets_strip (read : ReadUnit) :
    anchoringKeySets C c.strip read = anchoringKeySets C c read := by
  unfold anchoringKeySets
  simp only [ValidatedChain.strip_head]
  rfl

theorem checkSuccessor_strip (bytes : Bytes) (signing : Signing) :
    checkSuccessor C c.strip bytes signing = checkSuccessor C c bytes signing := by
  unfold checkSuccessor
  simp only [ValidatedChain.strip_headDigest, checkContent_strip, anchoringKeySets_strip]

end Strip

section World
variable (C : Crypto)

/-- Among the signed preimages of `seen`, neither the event digest nor the
identifier takes one value twice. -/
structure CollisionFree (seen : Set Bytes) : Prop where
  digest : Set.InjOn C.sha256 seen
  identifier : Set.InjOn (fun signed => C.sha256 (kelIdSeparator ++ signed)) seen

/-- The chains the validator builds for an identifier from preimages in `seen`. -/
def ValidIn (seen : Set Bytes) (identifier : Identifier) (chain : ValidatedChain) : Prop :=
  ∃ history, Builds C identifier history chain ∧ ∀ a ∈ history, a.preimage ∈ seen

variable {C} {seen : Set Bytes} {identifier : Identifier}

theorem CollisionFree.mono {seen' : Set Bytes} (h : CollisionFree C seen) (hsub : seen' ⊆ seen) :
    CollisionFree C seen' := ⟨h.digest.mono hsub, h.identifier.mono hsub⟩

theorem ValidIn.push {c : ValidatedChain} (h : ValidIn C seen identifier c)
    (hroom : c.later.length < vecMax) {u : Bytes} {a : Accepted}
    (hok : checkSuccessor C c u .signed = .ok a) (hpre : a.preimage ∈ seen) :
    ValidIn C seen identifier (c.push C a) := by
  obtain ⟨history, hb, hs⟩ := h
  refine ⟨history ++ [a], .push hb hroom hok, ?_⟩
  intro x hx
  rcases List.mem_append.mp hx with hx | hx
  · exact hs x hx
  · rwa [List.mem_singleton.mp hx]

theorem ValidIn.later_le {c : ValidatedChain} (h : ValidIn C seen identifier c) :
    c.later.length ≤ vecMax := by
  obtain ⟨history, hb, -⟩ := h
  cases hb with
  | inception checked => exact Nat.zero_le _
  | push built room checked =>
    simp only [ValidatedChain.push, ValidatedChain.record, List.length_append,
      List.length_singleton]
    exact room

theorem signedPreimageOf_injective : Function.Injective signedPreimageOf :=
  fun _ _ h => List.append_cancel_left h

theorem readEvent_unique {fields : Bytes} {header header' : EventHeader}
    {p p' : Except BodyError EventPreimage}
    (h : readEvent fields (signedLenOf fields) = .ok (header, p))
    (h' : readEvent fields (signedLenOf fields) = .ok (header', p')) :
    header = header' ∧ p = p' := by
  rw [h, Except.ok.injEq, Prod.mk.injEq] at h'
  exact h'

/-- Two accepted inceptions with one preimage are the same up to the unit. -/
theorem checkInception_strip_eq {bytes bytes' : Bytes} {a a' : Accepted}
    (h : checkInception C bytes (some identifier) .signed = .ok a)
    (h' : checkInception C bytes' (some identifier) .signed = .ok a')
    (hp : a.preimage = a'.preimage) : a.strip = a'.strip := by
  obtain ⟨fields, header, p, applied, hread, _, _, hcontent, rfl⟩ := checkInception_ok C h
  obtain ⟨fields', header', p', applied', hread', _, _, hcontent', rfl⟩ := checkInception_ok C h'
  obtain rfl : fields = fields' := signedPreimageOf_injective hp
  obtain ⟨rfl, hpp⟩ := readEvent_unique hread hread'
  obtain rfl := Except.ok.inj hpp
  rw [hcontent, Except.ok.injEq] at hcontent'
  rw [hcontent']
  rfl

/-- Two accepted successors of one chain, up to units, with one preimage are the
same up to the unit. -/
theorem checkSuccessor_strip_eq {c c' : ValidatedChain} {bytes bytes' : Bytes} {a a' : Accepted}
    (h : checkSuccessor C c bytes .signed = .ok a) (h' : checkSuccessor C c' bytes' .signed = .ok a')
    (hc : c.strip = c'.strip) (hp : a.preimage = a'.preimage) : a.strip = a'.strip := by
  obtain ⟨fields, header, p, applied, hread, _, hcontent, rfl⟩ := checkSuccessor_ok C h
  obtain ⟨fields', header', p', applied', hread', _, hcontent', rfl⟩ := checkSuccessor_ok C h'
  obtain rfl : fields = fields' := signedPreimageOf_injective hp
  obtain ⟨rfl, hpp⟩ := readEvent_unique hread hread'
  obtain rfl := Except.ok.inj hpp
  rw [← checkContent_strip, hc, checkContent_strip, hcontent', Except.ok.injEq] at hcontent
  rw [hcontent]
  rfl

/-- The digest of an accepted event is the hash of its signed preimage. -/
theorem digest_of_successor {c : ValidatedChain} {bytes : Bytes} {a : Accepted}
    (h : checkSuccessor C c bytes .signed = .ok a) : a.event.digest = C.sha256 a.preimage := by
  obtain ⟨_, _, _, _, _, _, _, rfl⟩ := checkSuccessor_ok C h
  rfl

theorem digest_of_inception {bytes : Bytes} {a : Accepted}
    (h : checkInception C bytes (some identifier) .signed = .ok a) :
    a.event.digest = C.sha256 a.preimage ∧
      identifier = C.sha256 (kelIdSeparator ++ a.preimage) := by
  obtain ⟨fields, _, _, _, _, hserved, _, _, rfl⟩ := checkInception_ok C h
  have hid : identifier = identifierOf C fields := by simpa using hserved
  exact ⟨rfl, hid⟩

theorem headDigest_push (c : ValidatedChain) (a : Accepted) :
    (c.push C a).headDigest = a.event.digest := by
  simp [ValidatedChain.headDigest, ValidatedChain.head, ValidatedChain.push, ValidatedChain.record]

theorem headDigest_fromInception (a : Accepted) :
    (ValidatedChain.fromInception C identifier a).headDigest = a.event.digest := rfl

/-- No preimage is that of an inception and of a later event. -/
theorem inception_ne_successor {c : ValidatedChain} {bytes bytes' : Bytes} {a a' : Accepted}
    (h : checkInception C bytes (some identifier) .signed = .ok a)
    (h' : checkSuccessor C c bytes' .signed = .ok a') : a.preimage ≠ a'.preimage := by
  intro hp
  obtain ⟨fields, header, p, applied, hread, _, hzero, _, rfl⟩ := checkInception_ok C h
  obtain ⟨fields', header', p', applied', hread', _, hcontent', rfl⟩ := checkSuccessor_ok C h'
  obtain rfl : fields = fields' := signedPreimageOf_injective hp
  obtain ⟨_, hpp⟩ := readEvent_unique hread hread'
  obtain rfl := Except.ok.inj hpp
  have hseq := (inception_zero_fields hread hzero).1
  have hlink := (checkContent_passed C hcontent').link c rfl
  simp only [checkLink, bind_ok_iff, exists_unit_iff, require_ok_iff, decide_eq_true_eq] at hlink
  have hnext := hlink.2.2.2
  have hzero' : p.sequence.toNat = 0 := by simp [hseq]
  rw [hzero', ValidatedChain.nextPosition] at hnext
  unfold u64Max at hnext
  omega

/-- Chains built without collisions that have one head digest are the same up to
the units that carried their events. -/
theorem builds_strip_eq (hcf : CollisionFree C seen) {history history' : List Accepted}
    {c c' : ValidatedChain} (h : Builds C identifier history c)
    (h' : Builds C identifier history' c') (hs : ∀ a ∈ history, a.preimage ∈ seen)
    (hs' : ∀ a ∈ history', a.preimage ∈ seen) (hd : c.headDigest = c'.headDigest) :
    c.strip = c'.strip := by
  induction h generalizing history' c' with
  | @inception bytes a checked =>
    have ha := hs a (by simp)
    cases h' with
    | @inception bytes' a' checked' =>
      have hp : a.preimage = a'.preimage := by
        apply hcf.digest ha (hs' a' (by simp))
        rw [← (digest_of_inception checked).1, ← (digest_of_inception checked').1]
        exact hd
      have he := checkInception_strip_eq checked checked' hp
      unfold ValidatedChain.fromInception
      rw [ValidatedChain.strip_record, ValidatedChain.strip_record, he]
      congr 1
      exact congrArg (fun x : Accepted => ValidatedChain.mk identifier x.event [] [] [] [] [] []) he
    | @push history' c' bytes' a' built' room' checked' =>
      exfalso
      apply inception_ne_successor checked checked'
      apply hcf.digest ha (hs' a' (by simp))
      rw [headDigest_push, headDigest_fromInception] at hd
      rw [← (digest_of_inception checked).1, ← digest_of_successor checked', hd]
  | @push history c bytes a built room checked ih =>
    have ha := hs a (by simp)
    cases h' with
    | @inception bytes' a' checked' =>
      exfalso
      apply inception_ne_successor checked' checked
      apply hcf.digest (hs' a' (by simp)) ha
      rw [headDigest_push, headDigest_fromInception] at hd
      rw [← (digest_of_inception checked').1, ← digest_of_successor checked, hd]
    | @push history' c' bytes' a' built' room' checked' =>
      rw [headDigest_push, headDigest_push] at hd
      have hp : a.preimage = a'.preimage := by
        apply hcf.digest ha (hs' a' (by simp))
        rw [← digest_of_successor checked, ← digest_of_successor checked', hd]
      -- One preimage names one predecessor, so the two chains before agree as well.
      have hpred : c.headDigest = c'.headDigest := by
        obtain ⟨fields, header, p, applied, hread, hpred, _, rfl⟩ := checkSuccessor_ok C checked
        obtain ⟨fields', header', p', applied', hread', hpred', _, rfl⟩ :=
          checkSuccessor_ok C checked'
        obtain rfl : fields = fields' := signedPreimageOf_injective hp
        obtain ⟨rfl, _⟩ := readEvent_unique hread hread'
        rw [← hpred, hpred']
      have hc := ih built' (fun x hx => hs x (by simp [hx])) (fun x hx => hs' x (by simp [hx])) hpred
      rw [ValidatedChain.strip_push, ValidatedChain.strip_push, hc,
        checkSuccessor_strip_eq checked checked' hc hp]

/-- A built chain's leading events build a chain of their own. -/
theorem builds_take {history : List Accepted} {c : ValidatedChain}
    (h : Builds C identifier history c) {i : ℕ} (hi : i < c.len) :
    ∃ c', Builds C identifier (history.take (i+1)) c' ∧ c'.events = c.events.take (i+1) := by
  induction h with
  | @inception bytes a checked =>
    obtain rfl : i = 0 := by
      simpa [ValidatedChain.len, ValidatedChain.fromInception, ValidatedChain.record] using hi
    exact ⟨_, .inception checked, rfl⟩
  | @push history c bytes a built room checked ih =>
    have hlen : history.length = c.len := (builds_keyStateRun C built).length
    have hev : (c.push C a).events = c.events ++ [a.event] := rfl
    by_cases hlt : i < c.len
    · obtain ⟨c', hb, he⟩ := ih hlt
      refine ⟨c', ?_, ?_⟩
      · rwa [List.take_append_of_le_length (by omega)]
      · rw [he, hev, List.take_append_of_le_length (by rw [c.length_events]; omega)]
    · refine ⟨c.push C a, ?_, ?_⟩
      · rw [List.take_of_length_le (by simp; omega)]
        exact .push built room checked
      · rw [List.take_of_length_le]
        rw [hev, List.length_append, c.length_events, List.length_singleton]
        omega

/-- The prefixes of a valid chain are valid. -/
theorem ValidIn.take {c : ValidatedChain} (h : ValidIn C seen identifier c) {i : ℕ}
    (hi : i < c.len) : ∃ c', ValidIn C seen identifier c' ∧ c'.events = c.events.take (i+1) := by
  obtain ⟨history, hb, hs⟩ := h
  obtain ⟨c', hb', he⟩ := builds_take hb hi
  exact ⟨c', ⟨_, hb', fun a ha => hs a (List.mem_of_mem_take ha)⟩, he⟩

/-- Each event of a valid chain is the head of one. -/
theorem ValidIn.take_head {c : ValidatedChain} (h : ValidIn C seen identifier c) {i : ℕ}
    {e : ChainEvent} (he : c.events[i]? = some e) :
    ∃ c', ValidIn C seen identifier c' ∧ c'.events = c.events.take (i+1) ∧ c'.head = e := by
  obtain ⟨hi, _⟩ := List.getElem?_eq_some_iff.mp he
  obtain ⟨c', hv, hev⟩ := h.take hi
  refine ⟨c', hv, hev, ?_⟩
  have hh := c'.head_eq
  rw [hev, List.getLast?_take, if_neg (by omega), Nat.add_sub_cancel, he] at hh
  exact (Option.some.inj hh).symm

theorem ValidIn.strip_eq (hcf : CollisionFree C seen) {c c' : ValidatedChain}
    (h : ValidIn C seen identifier c) (h' : ValidIn C seen identifier c')
    (hd : c.headDigest = c'.headDigest) : c.strip = c'.strip := by
  obtain ⟨_, hb, hs⟩ := h
  obtain ⟨_, hb', hs'⟩ := h'
  exact builds_strip_eq hcf hb hb' hs hs' hd

theorem ValidIn.inception_eq (hcf : CollisionFree C seen) {c c' : ValidatedChain}
    (h : ValidIn C seen identifier c) (h' : ValidIn C seen identifier c') :
    c.inception.digest = c'.inception.digest := by
  -- Both inceptions hash to the identifier.
  have hid : ∀ {c}, ValidIn C seen identifier c → ∃ signed ∈ seen,
      c.inception.digest = C.sha256 signed ∧
        identifier = C.sha256 (kelIdSeparator ++ signed) := by
    intro c h
    obtain ⟨history, hb, hs⟩ := h
    induction hb with
    | @inception bytes a checked =>
      exact ⟨a.preimage, hs a (by simp), digest_of_inception checked⟩
    | push built room checked ih => exact ih (fun x hx => hs x (by simp [hx]))
  obtain ⟨signed, hs, hdig, hid₁⟩ := hid h
  obtain ⟨signed', hs', hdig', hid₂⟩ := hid h'
  have he : signed = signed' := hcf.identifier hs hs' (hid₁.symm.trans hid₂)
  rw [hdig, hdig', he]

open Classical in
/-- The event a valid chain has for a digest, and the path down to it. -/
noncomputable def bookOf (C : Crypto) (seen : Set Bytes) (identifier : Identifier) : Book where
  root := if h : ∃ c, ValidIn C seen identifier c then h.choose.inception.digest else 0
  label d := if h : ∃ c, ValidIn C seen identifier c ∧ c.headDigest = d then h.choose.head.label
    else .rank3
  path d := if h : ∃ c, ValidIn C seen identifier c ∧ c.headDigest = d then h.choose.eventDigests
    else []

/-- Every valid chain of a world without collisions lies on its book. -/
theorem ValidIn.onBook (hcf : CollisionFree C seen) {c : ValidatedChain}
    (h : ValidIn C seen identifier c) : OnBook (bookOf C seen identifier) c := by
  have hroot : ∃ c, ValidIn C seen identifier c := ⟨c, h⟩
  -- Every event of a valid chain is the head of a valid chain, its prefix.
  have hhead : ∀ e ∈ c.events, ∃ c', ValidIn C seen identifier c' ∧ c'.headDigest = e.digest := by
    intro e he
    obtain ⟨i, hi⟩ := List.mem_iff_getElem?.mp he
    obtain ⟨c', hv, _, hh⟩ := h.take_head hi
    exact ⟨c', hv, by rw [ValidatedChain.headDigest, hh]⟩
  obtain ⟨history, hb, hs⟩ := id h
  have hrun := builds_keyStateRun C hb
  have hrec := (builds_recorded C hb).events
  refine ⟨?_, ?_, ?_, ?_, ?_⟩
  · unfold bookOf
    simp only [dif_pos hroot]
    exact h.inception_eq hcf hroot.choose_spec
  · intro i e he
    rw [hrec, List.getElem?_map, Option.map_eq_some_iff] at he
    obtain ⟨a, ha, rfl⟩ := he
    exact (hrun.positions i a ha).sequence
  · intro e he
    have hx := hhead e he
    obtain ⟨i, hi⟩ := List.mem_iff_getElem?.mp he
    obtain ⟨c', hv, _, hh⟩ := h.take_head hi
    unfold bookOf
    simp only [dif_pos hx]
    have hd : hx.choose.headDigest = c'.headDigest := by
      rw [hx.choose_spec.2, ValidatedChain.headDigest, hh]
    have hst := congrArg ValidatedChain.head (hx.choose_spec.1.strip_eq hcf hv hd)
    rw [ValidatedChain.strip_head, ValidatedChain.strip_head, hh] at hst
    have hl := congrArg ChainEvent.label hst
    exact hl
  · intro i e hi
    have hx := hhead e (List.mem_of_getElem? hi)
    obtain ⟨c', hv, hev, hh⟩ := h.take_head hi
    unfold bookOf
    simp only [dif_pos hx]
    have hd : hx.choose.headDigest = c'.headDigest := by
      rw [hx.choose_spec.2, ValidatedChain.headDigest, hh]
    have hst := congrArg ValidatedChain.eventDigests (hx.choose_spec.1.strip_eq hcf hv hd)
    rw [ValidatedChain.strip_eventDigests, ValidatedChain.strip_eventDigests] at hst
    rw [hst, ValidatedChain.eventDigests, hev, ValidatedChain.eventDigests, List.map_take]
  · have hlater := h.later_le
    unfold vecMax at hlater
    unfold ValidatedChain.len u64Max
    omega

end World

end ScpCore.Kel
