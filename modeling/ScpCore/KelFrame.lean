import ScpCore.KelRoom
import ScpCore.KelRetained

/-! What a frame adds to a retained log. The first event of an accepted frame is
on no held chain, and on the chain the frame leads to; where the bounds have room
for that chain, the log keeps every event it held and holds the frame's first. -/

namespace ScpCore.Kel

section Units
variable {C : Crypto} {u : Bytes} {a : Accepted}

/-- An accepted unit's event has the digest and the sequence its bytes read to. -/
def Accepted.ReadsFrom (C : Crypto) (a : Accepted) (u : Bytes) : Prop :=
  ∃ read, decodeEvent u 0 = .read read ∧ a.event.digest = eventDigestOf C read.fields ∧
    a.event.sequence = read.header.sequence.toNat

theorem sequence_of_read {read : ReadUnit} (hread : decodeEvent u 0 = .read read)
    {p : EventPreimage} (hp : read.preimage = .ok p) : p.sequence = read.header.sequence := by
  have hevent := decodeEvent_eq_read hread
  rw [hp] at hevent
  obtain ⟨-, hheads, -, -⟩ := readEvent_ok hevent
  exact hheads.sequence

theorem successor_readsFrom {chain : ValidatedChain}
    (h : checkSuccessor C chain u .signed = .ok a) : a.ReadsFrom C u := by
  unfold checkSuccessor at h
  split at h
  case h_4 read hread =>
    simp only [bind_ok_iff, exists_unit_iff, Prod.exists, pure_ok_iff] at h
    obtain ⟨-, applied, preimage, hsig, rfl⟩ := h
    have hc := signatures_ok C hsig
    simp only [bind_ok_iff, mapError_ok_iff, pure_ok_iff, Prod.mk.injEq] at hc
    obtain ⟨p, hp, -, -, -, rfl⟩ := hc
    refine ⟨read, hread, rfl, ?_⟩
    exact congrArg BitVec.toNat (sequence_of_read hread hp)
  all_goals simp at h

theorem inception_readsFrom {served : Option Identifier}
    (h : checkInception C u served .signed = .ok a) : a.ReadsFrom C u := by
  unfold checkInception at h
  split at h
  case h_4 read hread =>
    simp only [bind_ok_iff, Prod.exists, mapError_ok_iff, pure_ok_iff] at h
    obtain ⟨_, -, p, hp, _, -, applied, preimage, hsig, rfl⟩ := h
    have hc := signatures_ok C hsig
    simp only [Except.ok.injEq, Prod.mk.injEq] at hc
    obtain ⟨-, rfl⟩ := hc
    refine ⟨read, hread, rfl, ?_⟩
    exact congrArg BitVec.toNat (sequence_of_read hread hp)
  all_goals simp at h

end Units

section Frame
variable {C : Crypto} {seen : Set Bytes} {identifier : Identifier}

theorem push_eventDigests (chain : ValidatedChain) (a : Accepted) :
    (chain.push C a).eventDigests = chain.eventDigests ++ [a.event.digest] := by
  simp [ValidatedChain.eventDigests, ValidatedChain.events, ValidatedChain.push,
    ValidatedChain.record]

theorem getElem?_of_prefix {xs ys : List Digest} (h : xs <+: ys) {i : ℕ} {x : Digest}
    (hx : xs[i]? = some x) : ys[i]? = some x := by
  obtain ⟨zs, rfl⟩ := h
  rw [List.getElem?_append_left (List.getElem?_eq_some_iff.mp hx).1, hx]

/-- The units after the first only add events. -/
theorem extendRest_prefix {rest : List Bytes} {offset : ℕ} {chain extended : ValidatedChain}
    (h : RetainedLog.extendRest C offset chain rest = .ok extended) :
    chain.eventDigests <+: extended.eventDigests := by
  induction rest generalizing offset chain with
  | nil =>
    rw [RetainedLog.extendRest, Except.ok.injEq] at h
    rw [h]
  | cons unit rest ih =>
    rw [RetainedLog.extendRest, bind_ok_iff] at h
    obtain ⟨next, hnext, h⟩ := h
    obtain ⟨a, -, rfl⟩ := extendAt_ok hnext
    refine List.IsPrefix.trans ?_ (ih h)
    rw [push_eventDigests]
    exact List.prefix_append _ _

variable (hcf : CollisionFree C seen)
include hcf

/-- The chain of a lone inception carries the event the unit reads to, at its sequence. -/
theorem fromFirst_first {log : RetainedLog} {first : Bytes}
    (hseen : preimagesOf [first] ⊆ seen) {read : ReadUnit}
    (hread : decodeEvent first 0 = .read read) {chain : ValidatedChain}
    (h : log.fromFirst C first = .ok chain) :
    chain.eventDigests[read.header.sequence.toNat]? = some (eventDigestOf C read.fields) := by
  obtain ⟨hvalid, -⟩ := fromFirst_validIn rfl hseen hcf h
  unfold RetainedLog.fromFirst at h
  simp only [bind_ok_iff, okOr_ok_iff] at h
  obtain ⟨found, hfound, hhead⟩ := h
  split at hfound
  · cases hfound
  · rename_i chains hverdict
    have hv : validateEntry C log.identifier [first] = ⟨.valid chains,
        (validateEntry C log.identifier [first]).discarded⟩ := by
      rw [← hverdict]
    obtain ⟨i, g, a, hroot⟩ := rooted_of_valid hv
    obtain ⟨u, hu, hok, -, hpre⟩ := hroot.copy (assembled_new [first])
    rw [List.mem_singleton.mp hu] at hok
    have hstart : ValidIn C seen log.identifier (.fromInception C log.identifier a) := by
      refine ⟨[a], .inception hok, ?_⟩
      intro a' ha'
      rw [List.mem_singleton.mp ha']
      exact hseen hpre
    obtain ⟨read', hread', hdigest, hsequence⟩ := inception_readsFrom hok
    obtain rfl : read = read' := EventUnit.read.inj (hread.symm.trans hread')
    -- A chain counts its events from zero, so the inception has sequence zero.
    have hzero : a.event.sequence = 0 := (hstart.onBook hcf).sequence 0 a.event rfl
    have hinception : chain.inception.digest = a.event.digest := hvalid.inception_eq hcf hstart
    rw [← hsequence, hzero, ← hdigest, ← hinception]
    rfl
  · cases hfound
    cases hhead

/-- The chain a frame's first unit leads to carries the unit's event at its sequence. -/
theorem anchored_first {log : RetainedLog} (hid : log.identifier = identifier)
    (hheld : ∀ c ∈ log.holder.held, ValidIn C seen identifier c) {first : Bytes} {rest : List Bytes}
    (hseen : preimagesOf [first] ⊆ seen) (hsize : rest.length+1 ≤ vecMax)
    (hroom : ∀ c ∈ log.holder.held, c.len+(rest.length+1) ≤ vecMax) {read : ReadUnit}
    (hread : decodeEvent first 0 = .read read) {start : ValidatedChain}
    (h : log.anchored C first read = .ok start) :
    start.eventDigests[read.header.sequence.toNat]? = some (eventDigestOf C read.fields) := by
  obtain ⟨hvalid, -⟩ := anchored_validIn hcf hid hheld hseen hsize hroom h
  unfold RetainedLog.anchored at h
  split at h
  · simp only [bind_ok_iff, exists_unit_iff] at h
    exact fromFirst_first hcf hseen hread h.2
  · simp only [bind_ok_iff, okOr_ok_iff] at h
    obtain ⟨predecessor, -, hstart⟩ := h
    obtain ⟨a, hok, rfl⟩ := extendAt_ok hstart
    obtain ⟨read', hread', hdigest, hsequence⟩ := successor_readsFrom hok
    obtain rfl : read = read' := EventUnit.read.inj (hread.symm.trans hread')
    -- The event stands last, and its sequence is its place.
    have hlast : (predecessor.push C a).events[predecessor.len]? = some a.event := by
      simp [ValidatedChain.events, ValidatedChain.push, ValidatedChain.record, ValidatedChain.len]
    have hplace := (hvalid.onBook hcf).sequence predecessor.len a.event hlast
    rw [← hsequence, hplace, ← hdigest, ValidatedChain.eventDigests, List.getElem?_map, hlast]
    rfl

/-- The first event of a frame is on the chain the frame leads to, and that chain
lies on no held one. -/
theorem frameChain_first {log : RetainedLog} (hid : log.identifier = identifier)
    (hheld : ∀ c ∈ log.holder.held, ValidIn C seen identifier c) {units : List Bytes}
    (hseen : preimagesOf units ⊆ seen) (hsize : units.length ≤ vecMax)
    (hroom : ∀ c ∈ log.holder.held, c.len+units.length ≤ vecMax) {chain : ValidatedChain}
    (h : log.frameChain C units = .ok chain) :
    (∃ first ∈ units.head?, ∃ read, decodeEvent first 0 = .read read ∧
      eventDigestOf C read.fields ∈ chain.eventDigests) ∧
    ∀ c ∈ log.holder.held, ¬ chain.eventDigests <+: c.eventDigests := by
  cases units with
  | nil => cases h
  | cons first rest =>
    rw [RetainedLog.frameChain] at h
    split at h
    · rename_i read hread
      simp only [bind_ok_iff, exists_unit_iff, require_ok_iff] at h
      obtain ⟨hnew, start, hstart, h⟩ := h
      have hat := anchored_first hcf hid hheld (preimagesOf_unit hseen List.mem_cons_self) hsize
        hroom hread hstart
      have hprefix := extendRest_prefix h
      have hat' : chain.eventDigests[read.header.sequence.toNat]? =
          some (eventDigestOf C read.fields) := getElem?_of_prefix hprefix hat
      refine ⟨⟨first, rfl, read, hread, List.mem_of_getElem? hat'⟩, ?_⟩
      intro c hc hon
      have hholds : log.holds read.header.sequence.toNat (eventDigestOf C read.fields) = true := by
        rw [RetainedLog.holds, List.any_eq_true]
        refine ⟨c, hc, ?_⟩
        rw [digestAt_eq, getElem?_of_prefix hon hat']
        simp
      rw [hholds] at hnew
      cases hnew
    all_goals cases h

/-- A frame whose chain the bounds have room for leaves every event the log held, and
adds its first. -/
theorem admit_keeps {log : RetainedLog} (hlog : Admitted C seen identifier log)
    (hled : ∀ s ∈ log.holder.set, s.Led (bookOf C seen identifier)) {units : List Bytes}
    (hseen : preimagesOf units ⊆ seen) (hsize : units.length ≤ vecMax)
    (hroom : ∀ c ∈ log.holder.held, c.len+units.length ≤ vecMax)
    (hfits : ∀ chain, log.frameChain C units = .ok chain →
      ∀ s ∈ log.holder.set, s.Room chain) {outcome : HoldOutcome}
    (hok : (log.admit_ C units).1 = .ok outcome) (hrefused : ∀ rank, outcome ≠ .refused rank) :
    (∀ s ∈ (log.admit_ C units).2.holder.set, s.Led (bookOf C seen identifier)) ∧
      log.holder.KeptIn (log.admit_ C units).2.holder ∧
      ∃ first ∈ units.head?, ∃ read, decodeEvent first 0 = .read read ∧
        ∃ d ∈ (log.admit_ C units).2.holder.held, eventDigestOf C read.fields ∈ d.eventDigests := by
  obtain ⟨hid, -⟩ := hlog.reachable hcf
  have hheld : ∀ c ∈ log.holder.held, ValidIn C seen identifier c :=
    fun c hc => (hlog.held hcf c hc).1
  unfold RetainedLog.admit_ at hok ⊢
  cases hchain : log.frameChain C units with
  | error refusal =>
    rw [hchain] at hok
    cases hok
  | ok chain =>
    rw [hchain] at hok
    dsimp only at hok ⊢
    rw [mapError_ok_iff] at hok
    have hvalid := frameChain_validIn hcf hid hheld hseen hsize hroom hchain
    obtain ⟨⟨first, hfirst, read, hread, hmem⟩, hoff⟩ :=
      frameChain_first hcf hid hheld hseen hsize hroom hchain
    have hspace := hfits chain hchain
    obtain ⟨hkept, d, hd, hprefix⟩ := hold_keeps hled (hvalid.onBook hcf) hoff hspace hok hrefused
    refine ⟨?_, hkept, first, hfirst, read, hread, d, hd, hprefix.subset hmem⟩
    exact hold_led hled (hvalid.onBook hcf) (fun s hs => (hspace s hs).safeArrival)

end Frame

end ScpCore.Kel
