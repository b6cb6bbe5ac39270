import ScpCore.KelHolder

/-! The key-event log of one identifier as a validating store holds it. A frame
is checked unit by unit against a held chain's cached state, never by a replay;
every chain the log holds is still the one a replay of its units gives. -/

namespace ScpCore.Kel

inductive FrameRefusal
  | empty
  | undecodable
  | firstHeld
  | unanchored
  | inceptionInvalid (defect : InceptionDefect)
  | illegal (index : ℕ) (discarded : Discarded)
  | hold (error : HoldError)
  deriving DecidableEq

structure RetainedLog where
  identifier : Identifier
  holder : AcceptedChainHolder
  deriving DecidableEq

namespace RetainedLog

def new (identifier : Identifier) : RetainedLog := ⟨identifier, .new⟩

variable (C : Crypto) (log : RetainedLog)

/-- Whether some held chain carries the event at `position`. -/
def holds (position : ℕ) (digest : Digest) : Bool :=
  log.holder.held.any (fun chain => chain.digestAt position = some digest)

/-- The held chain through `position`, where its event there is `digest`. -/
def chainThrough (position : ℕ) (digest : Digest) : Option ValidatedChain :=
  (log.holder.held.find? (fun chain => chain.digestAt position = some digest)).bind
    (·.prefixThrough position)

/-- The chain extended by the frame's unit at `index`. -/
def extendAt (chain : ValidatedChain) (index : ℕ) (unit : Bytes) :
    Except FrameRefusal ValidatedChain :=
  (chain.extend C unit).mapError (fun defect => .illegal index (.read 0 chain.nextPosition defect))

/-- The chain extended by the units that follow the first, the next of them at `offset`. -/
def extendRest : ℕ → ValidatedChain → List Bytes → Except FrameRefusal ValidatedChain
  | _, chain, [] => .ok chain
  | offset, chain, unit :: rest => do
    let chain ← extendAt C chain (saturatingAdd offset 1) unit
    extendRest (offset+1) chain rest

/-- The chain of a frame that starts at the identifier's inception. -/
def fromFirst (first : Bytes) : Except FrameRefusal ValidatedChain :=
  let validation := validateEntry C log.identifier [first]
  let found := match validation.verdict with
    | .inceptionInvalid defect => .error (.inceptionInvalid defect)
    | .valid chains => .ok chains.head?
    | .noInception => .ok none
  do
    okOr (← found) (validation.discarded.head?.elim .undecodable (.illegal 0))

/-- The chain the first unit leads to: the inception's own, or the successor's past
the held chain it names. -/
def anchored (first : Bytes) (read : ReadUnit) : Except FrameRefusal ValidatedChain :=
  if read.header.kind = .inception then do
    require (identifierOf C read.fields = log.identifier) .unanchored
    log.fromFirst C first
  else do
    let sequence := read.header.sequence.toNat
    let predecessor ← okOr (if sequence = 0 then none
      else log.chainThrough (sequence-1) read.header.predecessorDigest) .unanchored
    extendAt C predecessor 0 first

/-- The chain a frame's units lead to. -/
def frameChain : List Bytes → Except FrameRefusal ValidatedChain
  | [] => .error .empty
  | first :: rest =>
    match decodeEvent first 0 with
    | .read read => do
      require (!log.holds read.header.sequence.toNat (eventDigestOf C read.fields)) .firstHeld
      let chain ← log.anchored C first read
      extendRest C 0 chain rest
    | .unframed | .noSeparator | .headerFailed _ => .error .undecodable

/-- `admit`, with the log it leaves. -/
def admit_ (units : List Bytes) : Except FrameRefusal HoldOutcome × RetainedLog :=
  match log.frameChain C units with
  | .error refusal => (.error refusal, log)
  | .ok chain =>
    let held := log.holder.hold chain
    (held.1.mapError .hold, { log with holder := held.2 })

/-- A refused frame leaves the log as it was. -/
theorem admit_error {units : List Bytes} {refusal : FrameRefusal}
    (h : (log.admit_ C units).1 = .error refusal) : (log.admit_ C units).2 = log := by
  unfold admit_ at h ⊢
  split
  · rfl
  · rename_i chain hchain
    rw [hchain] at h
    dsimp only at h ⊢
    obtain ⟨error, herror, -⟩ := (mapError_error_iff _ _ _).mp h
    rw [log.holder.hold_error herror]

end RetainedLog

/-- The logs that frames lead to, accepted or not. The held chains and a frame's
units lie in memory, so together they stay within a `Vec`. -/
inductive Admitted (C : Crypto) (seen : Set Bytes) (identifier : Identifier) : RetainedLog → Prop
  | new : Admitted C seen identifier (.new identifier)
  | admits {log : RetainedLog} {units : List Bytes} (before : Admitted C seen identifier log)
      (read : preimagesOf units ⊆ seen) (size : units.length ≤ vecMax)
      (room : ∀ chain ∈ log.holder.held, chain.len+units.length ≤ vecMax) :
      Admitted C seen identifier (log.admit_ C units).2

section Frame
variable {C : Crypto} {seen : Set Bytes} {identifier : Identifier}

theorem digestAt_eq (c : ValidatedChain) (position : ℕ) :
    c.digestAt position = c.eventDigests[position]? := by
  unfold ValidatedChain.digestAt ValidatedChain.eventDigests ValidatedChain.events
  cases position with
  | zero => simp
  | succ n => simp

theorem extendAt_ok {chain extended : ValidatedChain} {index : ℕ} {unit : Bytes}
    (h : RetainedLog.extendAt C chain index unit = .ok extended) :
    ∃ a, checkSuccessor C chain unit .signed = .ok a ∧ extended = chain.push C a := by
  unfold RetainedLog.extendAt ValidatedChain.extend at h
  rw [mapError_ok_iff] at h
  cases hs : checkSuccessor C chain unit .signed with
  | error defect =>
    rw [hs] at h
    cases h
  | ok a =>
    rw [hs] at h
    cases h
    exact ⟨a, rfl, rfl⟩

/-- One unit more keeps a chain valid while there is room. -/
theorem extendAt_validIn {chain extended : ValidatedChain} {index : ℕ} {unit : Bytes}
    (hseen : preimagesOf [unit] ⊆ seen) (hc : ValidIn C seen identifier chain)
    (hroom : chain.later.length < vecMax)
    (h : RetainedLog.extendAt C chain index unit = .ok extended) :
    ValidIn C seen identifier extended ∧ extended.later.length = chain.later.length+1 := by
  obtain ⟨a, hok, rfl⟩ := extendAt_ok h
  refine ⟨hc.push hroom hok (hseen (successor_preimage (List.mem_singleton_self _) hok)), ?_⟩
  simp [ValidatedChain.push, ValidatedChain.record]

theorem extendRest_validIn {rest : List Bytes} {offset : ℕ} {chain extended : ValidatedChain}
    (hseen : ∀ u ∈ rest, preimagesOf [u] ⊆ seen) (hc : ValidIn C seen identifier chain)
    (hroom : chain.later.length+rest.length ≤ vecMax)
    (h : RetainedLog.extendRest C offset chain rest = .ok extended) :
    ValidIn C seen identifier extended := by
  induction rest generalizing offset chain with
  | nil =>
    rw [RetainedLog.extendRest, Except.ok.injEq] at h
    rwa [← h]
  | cons unit rest ih =>
    rw [RetainedLog.extendRest, bind_ok_iff] at h
    obtain ⟨next, hnext, h⟩ := h
    rw [List.length_cons] at hroom
    obtain ⟨hvalid, hlen⟩ := extendAt_validIn (hseen unit List.mem_cons_self) hc (by omega) hnext
    exact ih (fun u hu => hseen u (List.mem_cons_of_mem _ hu)) hvalid (by omega) h

theorem mem_held_of_chainThrough {log : RetainedLog} {position : ℕ} {digest : Digest}
    {q : ValidatedChain} (h : log.chainThrough position digest = some q) :
    ∃ c ∈ log.holder.held, c.digestAt position = some digest ∧ c.prefixThrough position = some q := by
  obtain ⟨c, hfind, hcut⟩ := Option.bind_eq_some_iff.mp h
  exact ⟨c, List.mem_of_find?_eq_some hfind, by simpa using List.find?_some hfind, hcut⟩

variable (hcf : CollisionFree C seen)
include hcf

omit hcf in
/-- The chain a lone inception gives. -/
theorem fromFirst_validIn {log : RetainedLog} (hid : log.identifier = identifier) {first : Bytes}
    (hseen : preimagesOf [first] ⊆ seen) (hcf : CollisionFree C seen) {chain : ValidatedChain}
    (h : log.fromFirst C first = .ok chain) :
    ValidIn C seen identifier chain ∧ chain.len ≤ 1 := by
  subst hid
  unfold RetainedLog.fromFirst at h
  simp only [bind_ok_iff, okOr_ok_iff] at h
  obtain ⟨found, hfound, h⟩ := h
  split at hfound
  · cases hfound
  · rename_i chains hverdict
    cases hfound
    have hmem : chain ∈ chains := List.mem_of_mem_head? h
    have hv : validateEntry C log.identifier [first] = ⟨.valid chains,
        (validateEntry C log.identifier [first]).discarded⟩ := by
      rw [← hverdict]
    have hcf' := hcf.mono hseen
    obtain ⟨i, g, a, hroot⟩ := rooted_of_valid hv
    obtain ⟨chains₁, discarded₁, heq, -, -, hlens, -⟩ := hroot.returns hcf'
    rw [hv, EntryValidation.mk.injEq, EntryVerdict.valid.injEq] at heq
    obtain ⟨rfl, -⟩ := heq
    have hentry : Served.entryChains C log.identifier [first] = some chains := by
      rw [Served.entryChains, hv]
    exact ⟨entryChains_validIn hcf' hseen (by simp [vecMax]) hentry chain hmem, hlens chain hmem⟩
  · cases hfound
    cases h

/-- The chain a frame's first unit leads to is valid: it continues a prefix of a valid
chain, or is the inception's own. -/
theorem anchored_validIn {log : RetainedLog} (hid : log.identifier = identifier)
    (hheld : ∀ c ∈ log.holder.held, ValidIn C seen identifier c) {first : Bytes} {rest : List Bytes}
    (hseen : preimagesOf [first] ⊆ seen) (hsize : rest.length+1 ≤ vecMax)
    (hroom : ∀ c ∈ log.holder.held, c.len+(rest.length+1) ≤ vecMax) {read : ReadUnit}
    {start : ValidatedChain} (h : log.anchored C first read = .ok start) :
    ValidIn C seen identifier start ∧ start.later.length+rest.length ≤ vecMax := by
  unfold RetainedLog.anchored at h
  split at h
  · simp only [bind_ok_iff, exists_unit_iff] at h
    obtain ⟨-, hstart⟩ := h
    obtain ⟨hv, hlen⟩ := fromFirst_validIn hid hseen hcf hstart
    unfold ValidatedChain.len at hlen
    exact ⟨hv, by omega⟩
  · simp only [bind_ok_iff, okOr_ok_iff] at h
    obtain ⟨predecessor, hpred, hstart⟩ := h
    split_ifs at hpred
    obtain ⟨c, hc, hdigest, hcut⟩ := mem_held_of_chainThrough hpred
    rw [digestAt_eq] at hdigest
    have hlt := (List.getElem?_eq_some_iff.mp hdigest).1
    rw [c.length_eventDigests] at hlt
    obtain ⟨q, hq, hcut'⟩ := (hheld c hc).prefixThrough hlt
    obtain rfl : q = predecessor := Option.some.inj (hcut'.symm.trans hcut)
    -- A cut is no longer than the chain it is cut from.
    have hle : q.len ≤ c.len := by
      have hev := (((hheld c hc).onBook hcf).prefixThrough_events hcut).1
      rw [← q.length_events, hev, List.length_take, c.length_events]
      exact min_le_right _ _
    have hfit := hroom c hc
    unfold ValidatedChain.len at hle hfit
    obtain ⟨hv, hlen⟩ := extendAt_validIn hseen hq (by omega) hstart
    exact ⟨hv, by omega⟩

omit hcf in
theorem preimagesOf_unit {units : List Bytes} (hseen : preimagesOf units ⊆ seen) {u : Bytes}
    (hu : u ∈ units) : preimagesOf [u] ⊆ seen := by
  intro signed hsigned
  obtain ⟨u', hu', fields, hf, rfl⟩ := hsigned
  rw [List.mem_singleton.mp hu'] at hf
  exact hseen ⟨u, hu, fields, hf, rfl⟩

/-- A frame's chain is valid: its first unit's is, and each later unit is checked on
the chain before it. -/
theorem frameChain_validIn {log : RetainedLog} (hid : log.identifier = identifier)
    (hheld : ∀ c ∈ log.holder.held, ValidIn C seen identifier c) {units : List Bytes}
    (hseen : preimagesOf units ⊆ seen) (hsize : units.length ≤ vecMax)
    (hroom : ∀ c ∈ log.holder.held, c.len+units.length ≤ vecMax) {chain : ValidatedChain}
    (h : log.frameChain C units = .ok chain) : ValidIn C seen identifier chain := by
  have hunit : ∀ u ∈ units, preimagesOf [u] ⊆ seen := fun u hu => preimagesOf_unit hseen hu
  cases units with
  | nil => cases h
  | cons first rest =>
    rw [RetainedLog.frameChain] at h
    split at h
    · rename_i read hread
      simp only [bind_ok_iff, exists_unit_iff] at h
      obtain ⟨-, start, hstart, h⟩ := h
      obtain ⟨hvalid, hlen⟩ := anchored_validIn hcf hid hheld (hunit first List.mem_cons_self)
        hsize hroom hstart
      exact extendRest_validIn (fun u hu => hunit u (List.mem_cons_of_mem _ hu)) hvalid hlen h
    all_goals cases h

/-- Along every run of frames the log holds a reachable set of its identifier. -/
theorem Admitted.reachable {log : RetainedLog} (h : Admitted C seen identifier log) :
    log.identifier = identifier ∧ ∀ s ∈ log.holder.set, Reachable C seen identifier s := by
  induction h with
  | new => exact ⟨rfl, by simp [RetainedLog.new, AcceptedChainHolder.new,
      AcceptedChainHolder.withBounds]⟩
  | @admits log units _ hread hsize hroom ih =>
    obtain ⟨hid, hreach⟩ := ih
    unfold RetainedLog.admit_
    split
    · exact ⟨hid, hreach⟩
    · rename_i chain hchain
      have hheld : ∀ c ∈ log.holder.held, ValidIn C seen identifier c := by
        intro c hc
        obtain ⟨s, hs, hmem⟩ := log.holder.mem_held.mp hc
        exact (hreach s hs).validIn hcf c hmem
      have hvalid := frameChain_validIn hcf hid hheld hread hsize hroom hchain
      exact ⟨hid, hold_reachable hcf hreach hvalid⟩

/-- Held chains are valid and carry one copy of each event. -/
theorem Admitted.held {log : RetainedLog} (h : Admitted C seen identifier log) :
    ∀ c ∈ log.holder.held, ValidIn C seen identifier c ∧ ∀ d ∈ log.holder.held, SameCopies c d := by
  obtain ⟨-, hreach⟩ := h.reachable hcf
  intro c hc
  obtain ⟨s, hs, hmem⟩ := log.holder.mem_held.mp hc
  refine ⟨(hreach s hs).validIn hcf c hmem, ?_⟩
  intro d hd
  obtain ⟨s', hs', hmem'⟩ := log.holder.mem_held.mp hd
  obtain rfl : s = s' := Option.some.inj (hs.symm.trans hs')
  exact ((hreach s hs).inv hcf).1.copies c hmem d hmem'

/-- Cuts of chains that carry one copy of each event, at one event, are one chain. -/
theorem prefixThrough_eq {c d p q : ValidatedChain} (hc : ValidIn C seen identifier c)
    (hd : ValidIn C seen identifier d) (hcopies : SameCopies c d) {position : ℕ}
    (hp : c.prefixThrough position = some p) (hq : d.prefixThrough position = some q)
    (hhead : p.headDigest = q.headDigest) : p = q := by
  obtain ⟨hpev, hplt⟩ := (hc.onBook hcf).prefixThrough_events hp
  obtain ⟨hqev, hqlt⟩ := (hd.onBook hcf).prefixThrough_events hq
  obtain ⟨p', hpv, hp'⟩ := hc.prefixThrough hplt
  obtain ⟨q', hqv, hq'⟩ := hd.prefixThrough hqlt
  obtain rfl : p' = p := Option.some.inj (hp'.symm.trans hp)
  obtain rfl : q' = q := Option.some.inj (hq'.symm.trans hq)
  have hstrip := hpv.strip_eq hcf hqv hhead
  apply chain_ext hstrip
  -- The bare events agree, so each pair of events has one digest and then one copy.
  have hbare : p'.events.map ChainEvent.strip = q'.events.map ChainEvent.strip := by
    rw [← ValidatedChain.strip_events, hstrip, ValidatedChain.strip_events]
  apply List.ext_getElem?
  intro i
  rw [List.getElem?_map, List.getElem?_map]
  have hat := congrArg (·[i]?) hbare
  simp only [List.getElem?_map] at hat
  cases he : p'.events[i]? with
  | none =>
    rw [he, Option.map_none, eq_comm, Option.map_eq_none_iff] at hat
    rw [hat]
  | some e =>
    rw [he, Option.map_some, eq_comm, Option.map_eq_some_iff] at hat
    obtain ⟨f, hf, hfe⟩ := hat
    have hec : e ∈ c.events := by
      have hmem := List.mem_of_getElem? he
      rw [hpev] at hmem
      exact List.mem_of_mem_take hmem
    have hfd : f ∈ d.events := by
      have hmem := List.mem_of_getElem? hf
      rw [hqev] at hmem
      exact List.mem_of_mem_take hmem
    have hdig : e.digest = f.digest := (congrArg ChainEvent.digest hfe).symm
    rw [hf, Option.map_some, Option.map_some, hcopies e hec f hfd hdig]

/-- The chain through a held event is the prefix, of every held chain with the event,
that ends at it. -/
theorem Admitted.chainThrough {log : RetainedLog} (h : Admitted C seen identifier log)
    {c : ValidatedChain} (hc : c ∈ log.holder.held) {position : ℕ} {digest : Digest}
    (hdigest : c.digestAt position = some digest) :
    ∃ q, log.chainThrough position digest = some q ∧ c.prefixThrough position = some q ∧
      q.headDigest = digest := by
  have hcut {d : ValidatedChain} (hd : d ∈ log.holder.held)
      (hat : d.digestAt position = some digest) :
      ∃ q, d.prefixThrough position = some q ∧ q.headDigest = digest := by
    rw [digestAt_eq] at hat
    have hlt := (List.getElem?_eq_some_iff.mp hat).1
    rw [d.length_eventDigests] at hlt
    have hbook := ((h.held hcf d hd).1).onBook hcf
    obtain ⟨q, hq⟩ := hbook.prefixThrough_isSome hlt
    refine ⟨q, hq, ?_⟩
    have hlast := q.headDigest_eq
    rw [(hbook.prefixThrough hq).2, List.getLast?_take, if_neg (by omega), Nat.add_sub_cancel,
      hat] at hlast
    exact (Option.some.inj hlast).symm
  have hsome : (log.holder.held.find?
      (fun chain => chain.digestAt position = some digest)).isSome := by
    rw [List.find?_isSome]
    exact ⟨c, hc, by simpa using hdigest⟩
  obtain ⟨d, hfind⟩ := Option.isSome_iff_exists.mp hsome
  have hd : d ∈ log.holder.held := List.mem_of_find?_eq_some hfind
  obtain ⟨q, hq, hqhead⟩ := hcut hd (by simpa using List.find?_some hfind)
  obtain ⟨p, hp, hphead⟩ := hcut hc hdigest
  obtain ⟨hvalid, hcopies⟩ := h.held hcf c hc
  obtain rfl := prefixThrough_eq hcf hvalid (h.held hcf d hd).1 (hcopies d hd) hp hq
    (hphead.trans hqhead.symm)
  refine ⟨p, ?_, hp, hphead⟩
  rw [RetainedLog.chainThrough, hfind]
  exact hq

end Frame

/-- A retained log holds only chains that validate again. Along every run of
frames, a refused frame leaves the log as it was, every held chain's units validate
to that chain with no unit discarded, and the chain through a held event is the
prefix that ends at it. -/
theorem retainedLog_revalidates (C : Crypto) (seen : Set Bytes) (identifier : Identifier)
    (hcf : CollisionFree C seen) (hzero : ∀ signed ∈ seen, C.sha256 signed ≠ 0)
    (log : RetainedLog) (h : Admitted C seen identifier log) :
    (∀ units refusal, (log.admit_ C units).1 = .error refusal → (log.admit_ C units).2 = log) ∧
    (∀ c ∈ log.holder.held, validateEntry C log.identifier c.units = ⟨.valid [c], []⟩) ∧
    ∀ c ∈ log.holder.held, ∀ position digest, c.digestAt position = some digest →
      ∃ q, log.chainThrough position digest = some q ∧ c.prefixThrough position = some q ∧
        q.headDigest = digest ∧ q.events = c.events.take (position+1) := by
  refine ⟨fun units refusal => log.admit_error C, ?_, ?_⟩
  · intro c hc
    rw [(h.reachable hcf).1]
    exact (h.held hcf c hc).1.revalidates hcf hzero
  · intro c hc position digest hdigest
    obtain ⟨q, hthrough, hcut, hhead⟩ := h.chainThrough hcf hc hdigest
    have hbook := ((h.held hcf c hc).1).onBook hcf
    exact ⟨q, hthrough, hcut, hhead, (hbook.prefixThrough_events hcut).1⟩

section Sample

/-- The sample inception, a recovery, and a frame refused for its first event. -/
def sampleFrames : List (List Bytes) :=
  [[sampleUnit sampleInception 1], [sampleUnit (sampleRecovery 4 5) 3], [sampleUnit sampleInception 1],
    [sampleUnit (sampleRecovery 6 7) 3]]

def sampleLog : RetainedLog :=
  sampleFrames.foldl (fun log units => (log.admit_ sampleCrypto units).2) (.new sampleIdentifier)

theorem sampleLog_admitted :
    Admitted sampleCrypto (preimagesOf sampleUnits) sampleIdentifier sampleLog := by
  have hsub {u : Bytes} (hu : u ∈ sampleUnits) : preimagesOf [u] ⊆ preimagesOf sampleUnits :=
    preimagesOf_unit subset_rfl hu
  have hinception := hsub (u := sampleUnit sampleInception 1) (by simp [sampleUnits])
  have hfirst := hsub (u := sampleUnit (sampleRecovery 4 5) 3) (by simp [sampleUnits])
  have hsecond := hsub (u := sampleUnit (sampleRecovery 6 7) 3) (by simp [sampleUnits])
  have hone (u : Bytes) : [u].length ≤ vecMax := by simp [vecMax]
  simp only [sampleLog, sampleFrames, List.foldl_cons, List.foldl_nil]
  have h₀ : Admitted sampleCrypto (preimagesOf sampleUnits) sampleIdentifier
      (.new sampleIdentifier) := .new
  have h₁ := h₀.admits hinception (hone _) (by decide +kernel)
  have h₂ := h₁.admits hfirst (hone _) (by decide +kernel)
  have h₃ := h₂.admits hinception (hone _) (by decide +kernel)
  exact h₃.admits hsecond (hone _) (by decide +kernel)

theorem sampleLog_revalidates : sampleLog.holder.held.length = 2 ∧
    ∀ c ∈ sampleLog.holder.held,
      validateEntry sampleCrypto sampleLog.identifier c.units = ⟨.valid [c], []⟩ := by
  obtain ⟨hcf, hzero⟩ := sampleUnits_world
  have h := retainedLog_revalidates sampleCrypto (preimagesOf sampleUnits) sampleIdentifier hcf hzero
    sampleLog sampleLog_admitted
  exact ⟨by decide +kernel, h.2.1⟩

end Sample

end ScpCore.Kel
