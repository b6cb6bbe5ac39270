import ScpCore.KelSignatures

/-! A change validated before it is signed. Extending a chain by a signed unit accepts
exactly the validated changes whose signatures all verify, with the effect the device
was shown, and a failure classed illegal condemns every copy of the event. -/

namespace ScpCore.Kel

/-- An unsigned candidate that passed the check order through step 8. -/
structure ValidatedChange where
  preimage : Bytes
  digest : Digest
  signers : List SignerGroupSpec
  effect : ChangeEffect
  deriving DecidableEq

def ValidatedChange.fromAccepted (accepted : Accepted) : ValidatedChange where
  preimage := accepted.preimage
  digest := accepted.event.digest
  signers := accepted.signers
  effect := accepted.effect

/-- The keys `Current` in a snapshot. -/
def KeyStateSnapshot.currentKeys (s : KeyStateSnapshot) : List Key :=
  (s.keys.filter (·.condition = .current)).map (·.key)

theorem currentPositions_get_eq_none_iff (s : KeyStateSnapshot) (key : Key) :
    (currentPositions s).get key = none ↔ key ∉ s.currentKeys := by
  rw [OrderedMap.get_eq_none_iff, mem_currentPositions]
  simp [KeyStateSnapshot.currentKeys, and_assoc]

/-- An entry is classified by its condition and by whether its key was `Current`. -/
theorem classifyEntry_segment {chain : ValidatedChain} {kind : EventKind} {entry : KeyEntry}
    {r : Segment × KeyEntry}
    (h : classifyEntry chain kind (currentPositions chain.head.snapshot) entry = .ok r) :
    r.2 = entry ∧
    (r.1 = .added ↔ entry.condition = .current ∧ entry.key ∉ chain.head.snapshot.currentKeys) ∧
    ((∃ position, r.1 = .dropped position) ↔ entry.condition ≠ .current) ∧
    (entry.condition ≠ .current → entry.key ∈ chain.head.snapshot.currentKeys) := by
  simp only [classifyEntry, bind_ok_iff, exists_unit_iff, require_ok_iff, pure_ok_iff] at h
  obtain ⟨-, segment, hsegment, -, -, rfl⟩ := h
  refine ⟨rfl, ?_⟩
  have hkey := currentPositions_get_eq_none_iff chain.head.snapshot entry.key
  cases hget : (currentPositions chain.head.snapshot).get entry.key with
  | none =>
    have hnot := hkey.mp hget
    cases hc : entry.condition with
    | current =>
      simp only [entrySegment, hc, hget, Except.ok.injEq] at hsegment
      simp [← hsegment, hnot]
    | superseded => simp [entrySegment, hc, hget] at hsegment
    | retired => simp [entrySegment, hc, hget] at hsegment
    | compromised => simp [entrySegment, hc, hget] at hsegment
  | some position =>
    have hmem : entry.key ∈ chain.head.snapshot.currentKeys := by
      by_contra hnot
      rw [hkey.mpr hnot] at hget
      cases hget
    cases hc : entry.condition with
    | current =>
      simp only [entrySegment, hc, hget, Except.ok.injEq] at hsegment
      simp [← hsegment, hmem]
    | superseded | retired | compromised =>
      simp only [entrySegment, hc, hget, Except.ok.injEq] at hsegment
      simp [← hsegment, hmem]

/-- The key list of a later snapshot: what it adds, what it drops, and that it lists
every key that was `Current`. -/
structure KeyListStep (before after : KeyStateSnapshot) (installed dropped : List KeyEntry) : Prop where
  installed_eq : installed =
    after.keys.filter (fun e => e.condition = .current ∧ e.key ∉ before.currentKeys)
  dropped_eq : dropped = after.keys.filter (·.condition ≠ .current)
  wasCurrent : ∀ e ∈ dropped, e.key ∈ before.currentKeys
  listed : before.currentKeys ⊆ after.keys.map (·.key)

theorem filterMap_of_forall₂ {α β γ : Type} {R : α → β → Prop} {as : List α} {bs : List β}
    (h : List.Forall₂ R as bs) {f : β → Option γ} {p : α → Bool} {g : α → γ}
    (hf : ∀ a b, R a b → f b = if p a then some (g a) else none) :
    bs.filterMap f = (as.filter p).map g := by
  induction h with
  | nil => rfl
  | @cons a b _ _ hr _ ih =>
    rw [List.filterMap_cons, List.filter_cons, hf a b hr, ih]
    cases p a with
    | true => simp
    | false => simp

theorem snapshotEntry_of_mem {s : KeyStateSnapshot} (hnodup : (s.keys.map (·.key)).Nodup)
    {e : KeyEntry} (he : e ∈ s.keys) : snapshotEntry s e.key = some e := by
  cases hfind : snapshotEntry s e.key with
  | none =>
    have hnone := List.find?_eq_none.mp hfind e he
    simp at hnone
  | some f =>
    have hkey := List.find?_some hfind
    have hmem := List.mem_of_find?_eq_some hfind
    rw [List.inj_on_of_nodup_map hnodup hmem he (by simpa using hkey)]

theorem successorKeyList_step {chain : ValidatedChain} {kind : EventKind} {snapshot : KeyStateSnapshot}
    {list : KeyList} (h : successorKeyList chain kind snapshot = .ok list)
    (hnodup : (snapshot.keys.map (·.key)).Nodup) :
    KeyListStep chain.head.snapshot snapshot
      (list.installed.filterMap (fun t => snapshotEntry snapshot t.1)) list.dropped ∧
    (list.installed.filterMap (fun t => snapshotEntry snapshot t.1)).map (fun e => (e.key, e.role)) =
      list.installed := by
  have hlisted := (successorKeyList_ok h).1
  simp only [successorKeyList, bind_ok_iff, exists_unit_iff, pure_ok_iff] at h
  obtain ⟨-, segments, hsegments, -, -, -, hlist⟩ := h
  have hwas : ∀ e ∈ snapshot.keys, e.condition ≠ .current →
      e.key ∈ chain.head.snapshot.currentKeys := by
    intro e he
    obtain ⟨r, _, hr⟩ := mapEach_mem_left hsegments he
    exact (classifyEntry_segment hr).2.2.2
  rw [mapEach_ok_iff] at hsegments
  -- Each entry has one segment, so what a segment selects is a filter of the entries.
  have hinstalled : list.installed =
      (snapshot.keys.filter (fun e => e.condition = .current ∧
        e.key ∉ chain.head.snapshot.currentKeys)).map (fun e => (e.key, e.role)) := by
    subst hlist
    apply filterMap_of_forall₂ hsegments
    intro entry r hr
    obtain ⟨hentry, hadded, -, -⟩ := classifyEntry_segment hr
    simp only [hadded, hentry, decide_eq_true_eq]
  have hdropped : list.dropped = snapshot.keys.filter (·.condition ≠ .current) := by
    subst hlist
    rw [← List.map_id (snapshot.keys.filter _)]
    apply filterMap_of_forall₂ hsegments
    intro entry r hr
    obtain ⟨hentry, -, hdropped, -⟩ := classifyEntry_segment hr
    obtain ⟨segment, entry'⟩ := r
    cases segment with
    | dropped position =>
      have hne := hdropped.mp ⟨position, rfl⟩
      simpa [hne] using hentry
    | kept position | added =>
      have hcur : entry.condition = .current := by
        by_contra hne
        obtain ⟨_, heq⟩ := hdropped.mpr hne
        cases heq
      simp [hcur]
  have hentries : list.installed.filterMap
        (fun t => snapshotEntry snapshot t.1) = snapshot.keys.filter (fun e => e.condition = .current ∧
          e.key ∉ chain.head.snapshot.currentKeys) := by
    rw [hinstalled, List.filterMap_map]
    rw [List.filterMap_congr (g := some), List.filterMap_some]
    intro e he
    exact snapshotEntry_of_mem hnodup (List.mem_of_mem_filter he)
  refine ⟨⟨hentries, hdropped, ?_, ?_⟩, ?_⟩
  · intro e he
    obtain ⟨hmem, hne⟩ := List.mem_filter.mp (hdropped ▸ he)
    exact hwas e hmem (by simpa using hne)
  · intro key hkey
    obtain ⟨e, he, rfl⟩ := List.mem_map.mp hkey
    obtain ⟨hmem, hc⟩ := List.mem_filter.mp he
    obtain ⟨e', he', hsame⟩ := hlisted e hmem (by simpa using hc)
    exact List.mem_map.mpr ⟨e', he', hsame⟩
  · rw [hentries, hinstalled]

/-- The chain after an event is in the state its effect describes. -/
structure ChangeEffect.Describes (effect : ChangeEffect) (before after : ValidatedChain) : Prop where
  events : after.events = before.events ++ [after.head]
  kind : after.head.kind = effect.kind
  sequence : after.head.sequence = effect.sequence
  rootBefore : effect.rootBefore = some before.head.root
  rootAfter : after.head.root = effect.rootAfter
  witnessesBefore : effect.witnessesBefore = some before.head.snapshot.witnesses
  witnessesAfter : after.head.snapshot.witnesses = effect.witnessesAfter
  commitment : after.head.commitment = match effect.continuation with
    | none => before.head.commitment
    | some .abandons => .abandoned (BitVec.ofNat 64 effect.sequence) after.headDigest
    | some (.fixesCommitment commitment) => .fixed commitment
  keys : (after.head.snapshot = before.head.snapshot ∧ effect.installedKeys = [] ∧
      effect.droppedKeys = []) ∨
    KeyListStep before.head.snapshot after.head.snapshot effect.installedKeys effect.droppedKeys
  installed : after.installed = before.installed.orInsertAll
    (effect.installedKeys.map (fun e => (e.key, e.role, effect.sequence)))

theorem commitment_of_next {C : Crypto} {chain : ValidatedChain} {header : EventHeader}
    {preimage : EventPreimage} {digest : Digest} {applied : Applied}
    (h : ContentPassed C (.next chain) header preimage digest applied) :
    applied.commitment = match preimage.continuation with
      | none => chain.head.commitment
      | some .abandons => .abandoned preimage.sequence digest
      | some (.fixesCommitment commitment) => .fixed commitment := by
  obtain ⟨continuation, hcont, standing, hstanding, -, hafter, -⟩ := h.continuation
  have hsame : continuation = preimage.continuation := by
    unfold checkContinuationPresent at hcont
    split at hcont <;> simp_all
  rw [hsame] at hstanding
  cases hc : preimage.continuation with
  | none =>
    rw [hc] at hstanding
    obtain rfl := Except.ok.inj hstanding
    simpa [Position.chain?, eq_comm] using hafter
  | some c =>
    cases c with
    | abandons =>
      rw [hc] at hstanding
      obtain rfl := Except.ok.inj hstanding
      simpa [eq_comm] using hafter
    | fixesCommitment commitment =>
      rw [hc] at hstanding
      simp only [checkNextCommitment, bind_ok_iff, exists_unit_iff, pure_ok_iff] at hstanding
      obtain ⟨-, -, -, rfl⟩ := hstanding
      simpa [eq_comm] using hafter

/-- The effect a passing content check reports, in the state it leaves. -/
theorem checkContent_effect {C : Crypto} {chain : ValidatedChain} {header : EventHeader}
    {preimage : EventPreimage} {digest : Digest} {applied : Applied}
    (h : checkContent C (.next chain) header preimage digest = .ok applied) :
    applied.effect.kind = preimage.kind ∧ applied.effect.sequence = preimage.sequence.toNat ∧
    applied.effect.rootBefore = some chain.head.root ∧ applied.effect.rootAfter = applied.root ∧
    applied.effect.witnessesBefore = some chain.head.snapshot.witnesses ∧
    applied.effect.witnessesAfter = applied.snapshot.witnesses ∧
    applied.effect.continuation = preimage.continuation ∧
    ((applied.snapshot = chain.head.snapshot ∧ applied.effect.installedKeys = [] ∧
        applied.effect.droppedKeys = []) ∨
      KeyListStep chain.head.snapshot applied.snapshot applied.effect.installedKeys
        applied.effect.droppedKeys) ∧
    applied.effect.installedKeys.map (fun e => (e.key, e.role)) = applied.installed := by
  simp only [checkContent, bind_ok_iff, exists_unit_iff, checkInstalledRoot_ok_iff, okOr_ok_iff,
    Prod.exists, pure_ok_iff] at h
  obtain ⟨-, -, -, continuation, -, _, ⟨rfl, -⟩, rootAfter, hafter, keySets, -,
    snapshot, hsnap, standing, -, -, snapshotAfter, resolved, hsa, commitment, -, rfl⟩ := h
  refine ⟨rfl, rfl, rfl, rfl, rfl, rfl, rfl, ?_⟩
  dsimp only
  cases snapshot with
  | none =>
    simp only [Option.map_none, Option.none_or, Position.chain?, Option.map_some, Option.some.injEq,
      Prod.mk.injEq] at hsa
    exact ⟨.inl ⟨hsa.1.symm, rfl, rfl⟩, rfl⟩
  | some s =>
    simp only [Option.map_some, Option.some_or, Option.some.injEq, Prod.mk.injEq] at hsa
    obtain ⟨rfl, -⟩ := hsa
    unfold checkSnapshot at hsnap
    split at hsnap
    · cases hsnap
    · rename_i snapshot _
      simp only [bind_ok_iff, exists_unit_iff, okOr_ok_iff, pure_ok_iff, checkSnapshotKeys,
        checkDistinct_ok_iff, Option.some.injEq] at hsnap
      obtain ⟨-, -, ⟨⟨hkeys, -⟩, -⟩, -, list, hlist, active, -, rfl⟩ := hsnap
      obtain ⟨hstep, hmap⟩ := successorKeyList_step hlist (by simpa using hkeys)
      exact ⟨.inr hstep, hmap⟩

/-- Pushing an accepted event leaves the chain its effect describes. -/
theorem push_described {C : Crypto} {chain : ValidatedChain} {header : EventHeader}
    {preimage : EventPreimage} {fields : Bytes} {applied : Applied}
    (h : checkContent C (.next chain) header preimage (eventDigestOf C fields) = .ok applied)
    (unit : Bytes) :
    applied.effect.Describes chain
      (chain.push C (Accepted.new applied fields (eventDigestOf C fields) preimage unit)) := by
  obtain ⟨hkind, hseq, hrb, hra, hwb, hwa, hcont, hkeys, hinstalled⟩ := checkContent_effect h
  have hhead : (chain.push C (Accepted.new applied fields (eventDigestOf C fields) preimage unit)).head =
      chainEvent applied (eventDigestOf C fields) preimage unit := by
    simp [ValidatedChain.head, ValidatedChain.push, ValidatedChain.record, Accepted.new]
  refine {
    events := ?_
    kind := ?_
    sequence := ?_
    rootBefore := hrb
    rootAfter := ?_
    witnessesBefore := hwb
    witnessesAfter := ?_
    commitment := ?_
    keys := ?_
    installed := ?_ }
  · rw [hhead]
    rfl
  · rw [hhead, hkind]
    rfl
  · rw [hhead, hseq]
    rfl
  · rw [hhead, hra]
    rfl
  · rw [hhead, hwa]
    rfl
  · rw [ValidatedChain.headDigest, hhead, hcont, hseq, BitVec.ofNat_toNat]
    exact commitment_of_next (checkContent_passed C h)
  · rw [hhead]
    exact hkeys
  · rw [hseq]
    change chain.installed.orInsertAll (applied.installed.map _) = _
    rw [← hinstalled, List.map_map]
    rfl

section Change
variable (C : Crypto)

/-- `validate_change`: the check order without the walk, sub-check 7b and step 9. -/
def ValidatedChain.validateChange (chain : ValidatedChain) (candidatePreimage : Bytes) :
    Except EventDefect ValidatedChange :=
  (checkSuccessor C chain candidatePreimage .unsigned).map .fromAccepted

/-- A signature field signs a change: it reads to its end as one signature of the
declared form for each signer of each group, and each verifies under the key that the
change lists at the signer's index. -/
def ValidatedChange.SignedBy (change : ValidatedChange) (field : Bytes) : Prop :=
  ∃ read signed, decodeCandidate change.preimage = .read read ∧
    walkSignatureField read.header field = .ok (signed, []) ∧
    ∀ t ∈ (read.header.groups.zip signed).zip change.signers, ∀ s ∈ t.1.1.signers.zip t.1.2,
      ∀ named ∈ t.2.keySet, named.index = s.1.index →
        C.verify named.key change.digest s.1.form s.2.signature = .ok ()

variable {C}

theorem extend_ok_iff {chain chain' : ValidatedChain} {unit : Bytes} :
    chain.extend C unit = .ok chain' ↔
      ∃ a, checkSuccessor C chain unit .signed = .ok a ∧ chain' = chain.push C a := by
  unfold ValidatedChain.extend
  cases checkSuccessor C chain unit .signed with
  | error e => simp [Except.map]
  | ok a => simp [Except.map, eq_comm]

theorem extend_error_iff {chain : ValidatedChain} {unit : Bytes} {e : EventDefect} :
    chain.extend C unit = .error e ↔ checkSuccessor C chain unit .signed = .error e := by
  unfold ValidatedChain.extend
  cases checkSuccessor C chain unit .signed with
  | error e => simp [Except.map]
  | ok a => simp [Except.map]

/-- Of two copies of one event on one chain, if one is accepted then the other is
accepted or damaged. -/
theorem copy_not_illegal {chain : ValidatedChain} {u v b fieldU fieldV : Bytes}
    (hu : prefixedBytes u 0 = some (b, fieldU)) (hv : prefixedBytes v 0 = some (b, fieldV))
    {chain' : ValidatedChain} (hok : chain.extend C u = .ok chain') {e : EventDefect}
    (herr : chain.extend C v = .error e) : e.class ≠ .illegal := by
  obtain ⟨a, ha, -⟩ := extend_ok_iff.mp hok
  obtain ⟨read, preimage, applied, hcandidate⟩ := Candidate.of_signed hu ha
  rw [extend_error_iff] at herr
  rcases hcandidate.signed_cases hv with ⟨-, hv⟩ | ⟨-, e', hv, hclass⟩
  · rw [hv] at herr
    cases herr
  · rw [hv, Except.error.injEq] at herr
    rw [← herr, hclass]
    decide

/-- An illegal verdict condemns the event, not the copy: once a copy fails so, no copy
of the same preimage extends the chain, and no copy fails so where one extends it. -/
theorem illegal_condemns_every_copy (C : Crypto) (chain : ValidatedChain) (u v b fieldU fieldV : Bytes)
    (hu : prefixedBytes u 0 = some (b, fieldU)) (hv : prefixedBytes v 0 = some (b, fieldV)) :
    (∀ e, chain.extend C u = .error e → e.class = .illegal → ∀ c, chain.extend C v ≠ .ok c) ∧
    ∀ c e, chain.extend C u = .ok c → chain.extend C v = .error e → e.class ≠ .illegal := by
  refine ⟨?_, fun c e hok herr => copy_not_illegal hu hv hok herr⟩
  intro e herr hclass c hok
  exact copy_not_illegal hv hu hok herr hclass

/-- A change is what its candidate passed with. -/
theorem validateChange_ok_iff {chain : ValidatedChain} {b : Bytes} {change : ValidatedChange} :
    chain.validateChange C b = .ok change ↔ ∃ read preimage applied,
      Candidate C chain b read preimage applied ∧
      change = ⟨b, eventDigestOf C read.fields, applied.signers, applied.effect⟩ := by
  have hmap : chain.validateChange C b = .ok change ↔
      ∃ a, checkSuccessor C chain b .unsigned = .ok a ∧ .fromAccepted a = change := by
    unfold ValidatedChain.validateChange
    cases checkSuccessor C chain b .unsigned with
    | error e => simp [Except.map]
    | ok a => simp [Except.map]
  rw [hmap]
  constructor
  · rintro ⟨a, ha, rfl⟩
    obtain ⟨read, preimage, applied, hc, rfl⟩ := checkSuccessor_unsigned_iff.mp ha
    refine ⟨read, preimage, applied, hc, ?_⟩
    rw [(decodePrefixed_eq_read hc.decoded).1]
    rfl
  · rintro ⟨read, preimage, applied, hc, rfl⟩
    refine ⟨_, checkSuccessor_unsigned_iff.mpr ⟨read, preimage, applied, hc, rfl⟩, ?_⟩
    conv_rhs => rw [(decodePrefixed_eq_read hc.decoded).1]
    rfl

/-- The key sets a change lists are those step 9 verifies against. -/
theorem SignedBy.of_change {header : EventHeader} {digest : Digest} {keySets : List KeySet}
    {field : Bytes} {signed : List (List NamedSignature)}
    (hpasses : List.Forall₂ (fun group keys => GroupPasses keys group) header.groups keySets)
    (hwalk : walkSignatureField header field = .ok (signed, []))
    (h : ∀ t ∈ (header.groups.zip signed).zip (signerSpecs header.groups keySets),
      ∀ s ∈ t.1.1.signers.zip t.1.2, ∀ named ∈ t.2.keySet, named.index = s.1.index →
        C.verify named.key digest s.1.form s.2.signature = .ok ()) :
    SignedBy C header digest keySets field := by
  refine ⟨signed, hwalk, ?_⟩
  intro w hw s hs
  have hlengths := (walkSignatureField_ok hwalk).2
  obtain ⟨t, ht, rfl⟩ := List.mem_map.mp hw
  obtain ⟨x, hx, rfl⟩ := List.mem_map.mp hs
  obtain ⟨key, hkey⟩ := (walkedGroups_passes hpasses hlengths _ hw).group.inSet x.1 (List.of_mem_zip hx).1
  refine ⟨key, hkey, ?_⟩
  -- The change's spec of the group stands where its key set does.
  obtain ⟨i, hi⟩ := List.getElem?_of_mem ht
  obtain ⟨hgs, hkeys⟩ := List.getElem?_zip_eq_some.mp hi
  obtain ⟨hgroup, hsigned⟩ := List.getElem?_zip_eq_some.mp hgs
  have hspec : (signerSpecs header.groups keySets)[i]? = some ⟨t.1.1.role, t.2.threshold,
      t.2.keys.map (fun e => ⟨e.1, e.2⟩), t.1.1.signers.map (·.index)⟩ := by
    unfold signerSpecs
    have hzip : (header.groups.zip keySets)[i]? = some (t.1.1, t.2) :=
      List.getElem?_zip_eq_some.mpr ⟨hgroup, hkeys⟩
    rw [List.getElem?_map, hzip]
    rfl
  have hmem : ((header.groups.zip signed).zip (signerSpecs header.groups keySets))[i]? =
      some (t.1, _) := List.getElem?_zip_eq_some.mpr ⟨hgs, hspec⟩
  refine h _ (List.mem_of_getElem? hmem) x hx ⟨x.1.index, key⟩ ?_ rfl
  obtain ⟨e, hfind, rfl⟩ := Option.map_eq_some_iff.mp hkey
  have hindex : e.1 = x.1.index := by simpa using List.find?_some hfind
  exact List.mem_map.mpr ⟨e, List.mem_of_find?_eq_some hfind, by rw [← hindex]⟩

/-- What a device signs is what verifiers accept: a unit extends the chain only where its
preimage validates as a change, with the same digest and effect, and a validated change
signed in full extends the chain to the state its effect describes. -/
theorem extend_accepts_signed_changes (C : Crypto) (chain : ValidatedChain) (b unit field : Bytes)
    (hunit : prefixedBytes unit 0 = some (b, field)) :
    (∀ chain', chain.extend C unit = .ok chain' → ∃ a change,
      checkSuccessor C chain unit .signed = .ok a ∧ chain' = chain.push C a ∧
      chain.validateChange C b = .ok change ∧ change.digest = a.event.digest ∧
      change.effect = a.effect ∧ change.signers = a.signers) ∧
    ∀ change, chain.validateChange C b = .ok change → change.SignedBy C field →
      ∃ chain', chain.extend C unit = .ok chain' ∧ chain'.headDigest = change.digest ∧
        change.effect.Describes chain chain' := by
  constructor
  · intro chain' hextend
    obtain ⟨a, ha, rfl⟩ := extend_ok_iff.mp hextend
    obtain ⟨read, preimage, applied, hc⟩ := Candidate.of_signed hunit ha
    refine ⟨a, _, ha, rfl, validateChange_ok_iff.mpr ⟨read, preimage, applied, hc, rfl⟩, ?_⟩
    rcases hc.signed_cases hunit with ⟨-, hok⟩ | ⟨-, e, herr, -⟩
    · rw [ha, Except.ok.injEq] at hok
      rw [hok]
      exact ⟨rfl, rfl, rfl⟩
    · rw [ha] at herr
      cases herr
  · intro change hchange ⟨read', signed, hread', hwalk, hverify⟩
    obtain ⟨read, preimage, applied, hc, rfl⟩ := validateChange_ok_iff.mp hchange
    dsimp only at hread' hverify ⊢
    rw [hc.decoded, EventUnit.read.injEq] at hread'
    rw [← hread'] at hwalk hverify
    have hpassed := checkContent_passed C hc.content
    have hpasses := (checkGroups_passes hpassed.groups).imp (fun _ _ hg => hg.1)
    rw [hpassed.signers] at hverify
    have hsigned := SignedBy.of_change hpasses hwalk hverify
    rcases hc.signed_cases hunit with ⟨-, hok⟩ | ⟨hnot, -⟩
    · refine ⟨_, extend_ok_iff.mpr ⟨_, hok, rfl⟩, ?_, push_described hc.content unit⟩
      simp [ValidatedChain.headDigest, ValidatedChain.head, ValidatedChain.push, ValidatedChain.record,
        Accepted.new, chainEvent]
    · exact absurd hsigned hnot

end Change

section Sample

def samplePreimage : Bytes := signedPreimageOf (fieldsOut (sampleRecovery 4 5))

/-- A copy of the recovery with the given count of signatures. -/
def sampleCopyField (signers : ℕ) : Bytes := List.replicate (64*signers) 0

def sampleChange : ValidatedChange :=
  okGet (sampleChain.validateChange sampleCrypto samplePreimage) (by decide +kernel)

/-- The recovery, validated, signed by its three groups and pushed. -/
theorem extend_accepts_signed_changes_sample :
    sampleChain.validateChange sampleCrypto samplePreimage = .ok sampleChange ∧
    ∃ chain', sampleChain.extend sampleCrypto (sampleUnit (sampleRecovery 4 5) 3) = .ok chain' ∧
      chain'.headDigest = sampleChange.digest ∧ sampleChange.effect.Describes sampleChain chain' := by
  have hchange : sampleChain.validateChange sampleCrypto samplePreimage = .ok sampleChange :=
    eq_okGet _ _
  have hunit : prefixedBytes (sampleUnit (sampleRecovery 4 5) 3) 0 =
      some (samplePreimage, sampleCopyField 3) := by
    decide +kernel
  have hwalk : (match decodeCandidate sampleChange.preimage with
      | .read read => (walkSignatureField read.header (sampleCopyField 3)).toOption.any
          (fun x => x.2.isEmpty)
      | _ => false) = true := by
    decide +kernel
  have hsigned : sampleChange.SignedBy sampleCrypto (sampleCopyField 3) := by
    cases hread : decodeCandidate sampleChange.preimage with
    | read read =>
      rw [hread] at hwalk
      dsimp only at hwalk
      cases hfield : walkSignatureField read.header (sampleCopyField 3) with
      | error e =>
        rw [hfield] at hwalk
        cases hwalk
      | ok x =>
        rw [hfield] at hwalk
        have hempty : x.2 = [] := List.isEmpty_iff.mp hwalk
        refine ⟨read, x.1, hread, ?_, fun _ _ _ _ _ _ _ => rfl⟩
        rw [hfield, ← hempty]
    | unframed | noSeparator | headerFailed _ =>
      rw [hread] at hwalk
      cases hwalk
  exact ⟨hchange, (extend_accepts_signed_changes sampleCrypto sampleChain samplePreimage _ _ hunit).2
    sampleChange hchange hsigned⟩

/-- The recovery at a sequence that is not next. -/
def sampleMisplaced : EventPreimage := { sampleRecovery 4 5 with sequence := 7 }

theorem error_of_test {ε α : Type} {x : Except ε α} {p : ε → Bool}
    (h : (match x with | .error e => p e | .ok _ => false) = true) : ∃ e, x = .error e ∧ p e = true := by
  cases x with
  | error e => exact ⟨e, rfl, h⟩
  | ok a => cases h

/-- A copy short of signatures is damaged, not illegal, and a copy of the misplaced
recovery condemns every other. -/
theorem illegal_condemns_every_copy_sample :
    (∃ e, sampleChain.extend sampleCrypto (sampleUnit (sampleRecovery 4 5) 2) = .error e ∧
      e.class ≠ .illegal) ∧
    ∀ c, sampleChain.extend sampleCrypto (sampleUnit sampleMisplaced 2) ≠ .ok c := by
  have hok := eq_okGet (sampleChain.extend sampleCrypto (sampleUnit (sampleRecovery 4 5) 3))
    (by decide +kernel)
  obtain ⟨e, herr, -⟩ := error_of_test (p := fun _ => true)
    (x := sampleChain.extend sampleCrypto (sampleUnit (sampleRecovery 4 5) 2)) (by decide +kernel)
  obtain ⟨e', herr', hclass⟩ := error_of_test (p := fun e => decide (e.class = .illegal))
    (x := sampleChain.extend sampleCrypto (sampleUnit sampleMisplaced 3)) (by decide +kernel)
  refine ⟨⟨e, herr, ?_⟩, ?_⟩
  · exact (illegal_condemns_every_copy sampleCrypto sampleChain _ _ samplePreimage (sampleCopyField 3)
      (sampleCopyField 2) (by decide +kernel) (by decide +kernel)).2 _ e hok herr
  · exact (illegal_condemns_every_copy sampleCrypto sampleChain _ _
      (signedPreimageOf (fieldsOut sampleMisplaced)) (sampleCopyField 3) (sampleCopyField 2)
      (by decide +kernel) (by decide +kernel)).1 e' herr' (of_decide_eq_true hclass)

end Sample

end ScpCore.Kel
