import ScpCore.KelKeyUse

/-! The key state standing at each position of a chain the validator builds is
well formed, and each event hands it on from the event before. -/

namespace ScpCore.Kel

variable (C : Crypto)

/-- The entries of a snapshot that are `Current` in `role`. -/
def KeyStateSnapshot.currentIn (s : KeyStateSnapshot) (role : KeyRole) : List KeyEntry :=
  s.keys.filter (fun e => e.condition = .current ∧ e.role = role)

/-- The signed preimage of an accepted unit decodes to `p`. -/
def Accepted.Carries (a : Accepted) (p : EventPreimage) : Prop :=
  ∃ fields, a.preimage = signedPreimageOf fields ∧ decodePreimage fields = .ok ⟨p, fields⟩

/-- The state standing after one event. -/
structure StateOk (e : ChainEvent) : Prop where
  root : e.root = e.snapshot.rootSet
  threshold : 1 ≤ e.root.threshold.toNat ∧ e.root.threshold.toNat ≤ e.root.members.length
  size : e.root.members.length ≤ maxRootSetSize
  active : (e.snapshot.currentIn .active).length = 1
  operational : ∀ role, role ≠ .rootMember → (e.snapshot.currentIn role).length ≤ 1
  commitment : ∀ fc, e.commitment = .fixed fc → e.root.threshold.toNat ≤ fc.nextThreshold.toNat ∧
    fc.nextThreshold.toNat ≤ fc.commitments.length

/-- How an event's state follows from the state before it. -/
structure HandsOn (before after : ChainEvent) (p : EventPreimage) : Prop where
  sequence : after.sequence = before.sequence+1
  predecessor : p.predecessorDigest = before.digest
  snapshot : after.snapshot = p.keyState.getD before.snapshot
  root : after.kind ≠ .rootRecovery → after.snapshot.rootSet.members = before.snapshot.rootSet.members
  carried : ∀ e ∈ before.snapshot.keys, e.condition = .current →
    ∃ e' ∈ after.snapshot.keys, e'.key = e.key ∧ e'.role = e.role

section Snapshot

/-- Everything a passing snapshot check established. -/
structure SnapshotPassed (position : Position) (preimage : EventPreimage)
    (installedRoot : Option InstalledRootSet) (s : AppliedSnapshot) : Prop where
  size : s.snapshot.rootSet.members.length ≤ maxRootSetSize
  root : checkSnapshotRoot position installedRoot s.snapshot.rootSet = .ok ()
  distinct : (s.snapshot.keys.map (·.key)).Nodup
  operational : ∀ role, role ≠ .rootMember → (s.snapshot.currentIn role).length ≤ 1
  active : (s.snapshot.currentIn .active).length = 1
  keyList : ∃ list, s.installed = list.installed ∧
    positionKeyList position preimage.kind s.snapshot = .ok list

theorem currentIn_length_eq_count (s : KeyStateSnapshot) (role : KeyRole)
    (hr : role ≠ .rootMember) :
    (s.currentIn role).length = (s.keys.filterMap (fun e =>
      if e.condition = .current ∧ e.role ≠ .rootMember then some e.role else none)).count role := by
  unfold KeyStateSnapshot.currentIn
  induction s.keys with
  | nil => rfl
  | cons e keys ih =>
    rw [List.filter_cons, List.filterMap_cons]
    by_cases hc : e.condition = .current
    · by_cases hrole : e.role = role
      · simpa [hc, hrole, hr] using ih
      · by_cases hm : e.role = .rootMember
        · simpa [hc, hm, Ne.symm hr] using ih
        · simpa [hc, hrole, hm] using ih
    · simpa [hc] using ih

theorem checkSnapshot_passed {position : Position} {preimage : EventPreimage}
    {installedRoot : Option InstalledRootSet} {applied : Option AppliedSnapshot}
    (h : checkSnapshot position preimage installedRoot = .ok applied) :
    preimage.keyState = applied.map (·.snapshot) ∧
      ∀ s ∈ applied, SnapshotPassed position preimage installedRoot s := by
  unfold checkSnapshot at h
  split at h
  · rename_i hnone
    obtain rfl := Except.ok.inj h
    exact ⟨hnone, by simp⟩
  · rename_i snapshot hsome
    simp only [bind_ok_iff, exists_unit_iff, require_ok_iff, decide_eq_true_eq, okOr_ok_iff,
      pure_ok_iff, checkSnapshotKeys, checkDistinct_ok_iff, checkSnapshotFields] at h
    obtain ⟨hsize, hroot, ⟨⟨hkeys, _⟩, hroles, _⟩, ⟨hservice, _⟩, list, hlist, active, hactive,
      rfl⟩ := h
    refine ⟨hsome, ?_⟩
    intro s hs
    obtain rfl := Option.some.inj hs
    have hoperational : ∀ role, role ≠ .rootMember → (snapshot.currentIn role).length ≤ 1 := by
      intro role hr
      rw [currentIn_length_eq_count snapshot role hr]
      exact List.nodup_iff_count_le_one.mp hroles role
    refine ⟨hsize, hroot, ?_, hoperational, ?_, list, rfl, hlist⟩
    · simpa using hkeys
    · have hle := hoperational .active (by decide)
      have hmem : active ∈ snapshot.currentIn .active := by
        have hfound := List.find?_some hactive
        rw [hservice] at hfound
        apply List.mem_filter.mpr
        exact ⟨List.mem_of_find?_eq_some hactive, by simpa using hfound⟩
      have hpos := List.length_pos_of_mem hmem
      dsimp only
      omega

end Snapshot

section Roles

/-- Every key `Current` at the head was installed in the role it is listed in. -/
def RolesRecorded (c : ValidatedChain) : Prop :=
  ∀ e ∈ c.head.snapshot.keys, e.condition = .current → c.installedRole e.key = some e.role

theorem mem_currentPositions (s : KeyStateSnapshot) (key : Key) :
    key ∈ (currentPositions s).map Prod.fst ↔ ∃ e ∈ s.keys, e.condition = .current ∧ e.key = key := by
  rw [currentPositions, OrderedMap.mem_keys_orInsertAll]
  simp only [List.map_nil, List.not_mem_nil, false_or, List.map_map, List.mem_map, List.mem_reverse,
    List.mem_filter, decide_eq_true_eq, Function.comp_apply]
  constructor
  · rintro ⟨⟨e, i⟩, ⟨ht, hc⟩, rfl⟩
    exact ⟨e, List.fst_mem_of_mem_zipIdx ht, hc, rfl⟩
  · rintro ⟨e, he, hc, rfl⟩
    obtain ⟨i, hi, rfl⟩ := List.getElem_of_mem he
    refine ⟨(s.keys[i], i), ⟨?_, hc⟩, rfl⟩
    rw [List.mem_zipIdx_iff_getElem?]
    simp [hi]

/-- What one entry of a later snapshot went through. -/
theorem classifyEntry_ok {chain : ValidatedChain} {kind : EventKind} {current : OrderedMap Key ℕ}
    {entry : KeyEntry} {r : Segment × KeyEntry}
    (h : classifyEntry chain kind current entry = .ok r) :
    r.2 = entry ∧ (∀ role ∈ chain.installedRole entry.key, role = entry.role) ∧
      (entry.condition = .current → r.1 = .added ∨ entry.key ∈ current.map Prod.fst) := by
  simp only [classifyEntry, bind_ok_iff, exists_unit_iff, require_ok_iff, pure_ok_iff] at h
  obtain ⟨hrole, segment, hsegment, _, _, rfl⟩ := h
  refine ⟨rfl, ?_, ?_⟩
  · intro role hr
    rw [Option.mem_def] at hr
    simpa [hr] using hrole
  · intro hc
    cases hget : current.get entry.key with
    | none =>
      simp only [entrySegment, hc, hget, Except.ok.injEq] at hsegment
      exact Or.inl hsegment.symm
    | some i =>
      right
      by_contra hn
      rw [(OrderedMap.get_eq_none_iff _ _).mpr hn] at hget
      cases hget

/-- A later snapshot lists every key that was `Current`, and lists each key in
the role it was installed in. -/
theorem successorKeyList_ok {chain : ValidatedChain} {kind : EventKind} {snapshot : KeyStateSnapshot}
    {list : KeyList} (h : successorKeyList chain kind snapshot = .ok list) :
    (∀ e ∈ chain.head.snapshot.keys, e.condition = .current →
      ∃ e' ∈ snapshot.keys, e'.key = e.key) ∧
    (∀ e ∈ snapshot.keys, ∀ role ∈ chain.installedRole e.key, role = e.role) ∧
    (∀ e ∈ snapshot.keys, e.condition = .current → (e.key, e.role) ∈ list.installed ∨
      ∃ e' ∈ chain.head.snapshot.keys, e'.condition = .current ∧ e'.key = e.key) ∧
    ∀ t ∈ list.installed, ∃ e ∈ snapshot.keys, t = (e.key, e.role) := by
  simp only [successorKeyList, bind_ok_iff, exists_unit_iff, pure_ok_iff] at h
  obtain ⟨_, segments, hsegments, hsilent, _, _, rfl⟩ := h
  refine ⟨?_, ?_, ?_, ?_⟩
  · intro e he hc
    have hkey := (mem_currentPositions _ _).mpr ⟨e, he, hc, rfl⟩
    obtain ⟨t, ht, hte⟩ := List.mem_map.mp hkey
    have hlisted := (checkEach_ok_iff _ _ _).mp hsilent t ht
    simpa [hte] using hlisted
  · intro e he
    obtain ⟨r, _, hr⟩ := mapEach_mem_left hsegments he
    exact (classifyEntry_ok hr).2.1
  · intro e he hc
    obtain ⟨r, hmem, hr⟩ := mapEach_mem_left hsegments he
    obtain ⟨hentry, _, hsegment⟩ := classifyEntry_ok hr
    rcases hsegment hc with hadded | hkept
    · left
      apply List.mem_filterMap.mpr
      exact ⟨r, hmem, by simp [hadded, hentry]⟩
    · right
      exact (mem_currentPositions _ _).mp hkept
  · intro t ht
    obtain ⟨r, hmem, hsome⟩ := List.mem_filterMap.mp ht
    obtain ⟨e, he, hr⟩ := mapEach_mem_right hsegments hmem
    obtain ⟨hentry, _, _⟩ := classifyEntry_ok hr
    split_ifs at hsome
    obtain rfl := Option.some.inj hsome
    exact ⟨e, he, by rw [hentry]⟩

/-- Installing `installed` over `m` answers `role` for a key it lists once. -/
theorem get_installed {m : OrderedMap Key (KeyRole × ℕ)} {installed : List (Key × KeyRole)}
    {position : ℕ} {key : Key} {role : KeyRole} (hnew : key ∉ m.map Prod.fst)
    (hmem : (key, role) ∈ installed) (hone : ∀ t ∈ installed, t.1 = key → t.2 = role) :
    (m.orInsertAll (installed.map (fun (key, role) => (key, role, position)))).get key =
      some (role, position) := by
  rw [OrderedMap.get_orInsertAll, (OrderedMap.get_eq_none_iff m key).mpr hnew, Option.none_or]
  cases hget : OrderedMap.get (installed.map (fun (key, role) => (key, role, position))) key with
  | none =>
    have hn := (OrderedMap.get_eq_none_iff _ key).mp hget
    exact absurd (List.mem_map.mpr ⟨_, List.mem_map_of_mem hmem, rfl⟩) hn
  | some v =>
    obtain ⟨e, hfind, rfl⟩ := Option.map_eq_some_iff.mp hget
    have hkey := List.find?_some hfind
    obtain ⟨t, ht, rfl⟩ := List.mem_map.mp (List.mem_of_find?_eq_some hfind)
    simp only [decide_eq_true_eq] at hkey
    simp [hone t ht hkey]

end Roles

section Step

theorem checkField_ok_iff (field : ℕ) (carried held : Bool) (u : Unit) :
    checkField field carried held = .ok u ↔ carried = held := by
  cases carried <;> cases held <;> simp [checkField]

/-- Fields 9 and 10 are present exactly on the kinds that carry them. -/
theorem fields_of_sentinels {p : EventPreimage} (h : checkSentinels p = .ok ()) :
    (p.installedRootSet.isSome = true ↔ p.kind = .inception ∨ p.kind = .rootRecovery) ∧
      (p.keyState.isSome = true ↔ p.kind ≠ .commitmentRollover) := by
  simp only [checkSentinels, bind_ok_iff, exists_unit_iff, checkField_ok_iff] at h
  obtain ⟨_, _, h9, h10, _⟩ := h
  constructor
  · rw [← h9]
    simp
  · rw [← h10]
    simp

/-- The root standing after an event is the root set of the snapshot standing
after it. -/
theorem root_of_passed {position : Position} {header : EventHeader} {preimage : EventPreimage}
    {digest : Digest} {applied : Applied}
    (h : ContentPassed C position header preimage digest applied)
    (hbefore : ∀ c ∈ position.chain?, StateOk c.head) :
    applied.root = applied.snapshot.rootSet ∧
      (1 ≤ applied.root.threshold.toNat ∧
        applied.root.threshold.toNat ≤ applied.root.members.length) ∧
      applied.root.members.length ≤ maxRootSetSize := by
  obtain ⟨_, _, _, _, _, _, snapshot, hsnapshot, _, _, hafter⟩ := h.continuation
  obtain ⟨hkey, hpassed⟩ := checkSnapshot_passed hsnapshot
  obtain ⟨h9, h10⟩ := fields_of_sentinels h.sentinels
  have hroot := h.rootAfter
  cases hs : snapshot with
  | none =>
    -- A rollover: nothing is installed and the predecessor's state stands.
    rw [hs, Option.map_none] at hkey
    rw [hs, Option.map_none, Option.none_or] at hafter
    have hkind : preimage.kind = .commitmentRollover := by
      by_contra hn
      simp [hkey, hn] at h10
    have hnone : preimage.installedRootSet = none := by
      rw [hkind] at h9
      simpa using h9
    rw [hnone, Option.none_or] at hroot
    obtain ⟨c, hc, hcroot⟩ := Option.map_eq_some_iff.mp hroot
    obtain ⟨c', hc', hcsnap⟩ := Option.map_eq_some_iff.mp hafter
    obtain rfl := Option.some.inj (hc.symm.trans hc')
    have hstate := hbefore c hc
    have hsnap : c.head.snapshot = applied.snapshot := congrArg Prod.fst hcsnap
    rw [← hcroot, ← hsnap]
    exact ⟨hstate.root, hstate.threshold, hstate.size⟩
  | some s =>
    rw [hs, Option.map_some, Option.some_or] at hafter
    have hsnap : s.snapshot = applied.snapshot := congrArg Prod.fst (Option.some.inj hafter)
    obtain ⟨hsize, hsroot, _, _, _, _⟩ := hpassed s (by simp [hs])
    rw [hsnap] at hsize hsroot
    cases hset : preimage.installedRootSet with
    | some set =>
      rw [hset, Option.some_or] at hroot
      obtain rfl := Option.some.inj hroot
      have heq : applied.root = applied.snapshot.rootSet := by
        simpa [checkSnapshotRoot, hset] using hsroot
      have ht := h.root applied.root (by simp [hset])
      exact ⟨heq, ht.2, heq ▸ hsize⟩
    | none =>
      rw [hset, Option.none_or] at hroot
      obtain ⟨c, hc, hcroot⟩ := Option.map_eq_some_iff.mp hroot
      have hstate := hbefore c hc
      have heq : c.head.root = applied.snapshot.rootSet := by
        cases position with
        | inception _ => simp [Position.chain?] at hc
        | next chain =>
          obtain rfl := Option.some.inj hc
          simpa [checkSnapshotRoot, hset] using hsroot
      rw [← hcroot]
      exact ⟨heq, hstate.threshold, hstate.size⟩

/-- An event that carries no root set leaves the standing root as it was. -/
theorem root_unchanged {chain : ValidatedChain} {header : EventHeader} {preimage : EventPreimage}
    {digest : Digest} {applied : Applied}
    (h : ContentPassed C (.next chain) header preimage digest applied)
    (hk : preimage.kind ≠ .rootRecovery) : applied.root = chain.head.root := by
  have hlink := h.link chain rfl
  simp only [checkLink, bind_ok_iff, exists_unit_iff, require_ok_iff, decide_eq_true_eq] at hlink
  have hnone : preimage.installedRootSet = none := by
    by_contra hn
    rcases (fields_of_sentinels h.sentinels).1.mp (Option.isSome_iff_ne_none.mpr hn) with hi | hr
    · exact hlink.2.1 hi
    · exact hk hr
  have hroot := h.rootAfter
  rw [hnone] at hroot
  simpa [Position.chain?] using hroot.symm

theorem stateOk_of_passed {position : Position} {header : EventHeader} {preimage : EventPreimage}
    {digest : Digest} {applied : Applied}
    (h : ContentPassed C position header preimage digest applied)
    (hbefore : ∀ c ∈ position.chain?, StateOk c.head) (fields unit : Bytes) :
    StateOk (chainEvent applied digest preimage unit) := by
  obtain ⟨hroot, hthreshold, hsize⟩ := root_of_passed C h hbefore
  have hcommit := commitmentStep_of_passed C h fields unit
  obtain ⟨_, _, _, _, _, _, snapshot, hsnapshot, _, _, hafter⟩ := h.continuation
  obtain ⟨_, hpassed⟩ := checkSnapshot_passed hsnapshot
  have hkeys : (applied.snapshot.currentIn .active).length = 1 ∧
      ∀ role, role ≠ .rootMember → (applied.snapshot.currentIn role).length ≤ 1 := by
    -- The snapshot is the one the event carries, or else that of the head before it.
    cases hs : snapshot with
    | none =>
      rw [hs, Option.map_none, Option.none_or] at hafter
      obtain ⟨c, hc, hcsnap⟩ := Option.map_eq_some_iff.mp hafter
      have hstate := hbefore c hc
      rw [← show c.head.snapshot = applied.snapshot from congrArg Prod.fst hcsnap]
      exact ⟨hstate.active, hstate.operational⟩
    | some s =>
      rw [hs, Option.map_some, Option.some_or] at hafter
      have hp := hpassed s (by simp [hs])
      rw [← show s.snapshot = applied.snapshot from congrArg Prod.fst (Option.some.inj hafter)]
      exact ⟨hp.active, hp.operational⟩
  refine ⟨hroot, hthreshold, hsize, hkeys.1, hkeys.2, ?_⟩
  intro fc hfc
  rcases hcommit with ⟨same, _, hkind⟩ | ⟨commitment, after, _, _, hr, hsz⟩ | ⟨after, _⟩
  · -- The commitment stands over an unchanged root.
    cases position with
    | inception _ => simp [Position.chain?] at same
    | next chain =>
      have hnot : preimage.kind ≠ .rootRecovery := by
        intro hk
        simp [Accepted.new, chainEvent, hk, EventKind.isRevealAuthorized] at hkind
      have hsame : chain.head.commitment = .fixed fc := (Option.some.inj same).trans hfc
      have hstate := (hbefore chain rfl).commitment fc hsame
      rw [← root_unchanged C h hnot] at hstate
      exact hstate
  · obtain rfl := StandingCommitment.fixed.inj (after.symm.trans hfc)
    exact ⟨hr, hsz⟩
  · rw [show (Accepted.new applied fields digest preimage unit).event.commitment = .fixed fc
      from hfc] at after
    cases after

theorem carries_of_readEvent {fields : Bytes} {header : EventHeader} {p : EventPreimage}
    (h : readEvent fields (signedLenOf fields) = .ok (header, .ok p)) :
    decodePreimage fields = .ok ⟨p, fields⟩ := by
  obtain ⟨groups, hh, hb, hw, hf⟩ := (readEvent_ok_iff fields (signedLenOf fields) p).mp ⟨header, h⟩
  rw [hf] at hw
  exact (decodePreimage_ok_iff fields ⟨p, fields⟩).mpr ⟨⟨groups, hh, hb, hw⟩, hf, rfl⟩

/-- A successor's snapshot is its own, or the predecessor's where it carries none. -/
theorem snapshot_of_passed {chain : ValidatedChain} {header : EventHeader}
    {preimage : EventPreimage} {digest : Digest} {applied : Applied}
    (h : ContentPassed C (.next chain) header preimage digest applied) :
    (preimage.keyState = none ∧ applied.installed = [] ∧
      applied.snapshot = chain.head.snapshot) ∨
    ∃ s, preimage.keyState = some applied.snapshot ∧ s.snapshot = applied.snapshot ∧
      applied.installed = s.installed ∧
      SnapshotPassed (.next chain) preimage preimage.installedRootSet s := by
  obtain ⟨_, _, _, _, _, _, snapshot, hsnapshot, _, hinstalled, hafter⟩ := h.continuation
  obtain ⟨hkey, hpassed⟩ := checkSnapshot_passed hsnapshot
  cases snapshot with
  | none =>
    left
    refine ⟨hkey, hinstalled, ?_⟩
    simpa [Position.chain?] using (congrArg (Option.map Prod.fst) hafter).symm
  | some s =>
    right
    have hsnap : s.snapshot = applied.snapshot := congrArg Prod.fst (Option.some.inj hafter)
    exact ⟨s, hsnap ▸ hkey, hsnap, hinstalled, hpassed s rfl⟩

/-- The state a passing successor leaves follows from the state before it. -/
theorem handsOn_of_passed {chain : ValidatedChain} {header : EventHeader} {preimage : EventPreimage}
    {digest : Digest} {applied : Applied} {unit : Bytes}
    (h : ContentPassed C (.next chain) header preimage digest applied)
    (hbefore : StateOk chain.head) (hroles : RolesRecorded chain)
    (hroom : chain.head.sequence+1 ≤ u64Max) (hpred : preimage.predecessorDigest = chain.headDigest) :
    HandsOn chain.head (chainEvent applied digest preimage unit) preimage := by
  have hlink := h.link chain rfl
  simp only [checkLink, bind_ok_iff, exists_unit_iff, require_ok_iff, decide_eq_true_eq] at hlink
  have hroot := (root_of_passed C h (fun c hc => Option.some.inj hc ▸ hbefore)).1
  refine ⟨?_, hpred, ?_, ?_, ?_⟩
  · change preimage.sequence.toNat = _
    rw [hlink.2.2.2, ValidatedChain.nextPosition, ValidatedChain.headSequence]
    omega
  · change applied.snapshot = _
    rcases snapshot_of_passed C h with ⟨hkey, _, hsnap⟩ | ⟨s, hkey, _, _, _⟩
    · rw [hkey, hsnap, Option.getD_none]
    · rw [hkey, Option.getD_some]
  · intro hk
    change applied.snapshot.rootSet.members = _
    rw [← hroot, root_unchanged C h hk, hbefore.root]
  · intro e he hc
    change ∃ e' ∈ applied.snapshot.keys, _
    rcases snapshot_of_passed C h with ⟨_, _, hsnap⟩ | ⟨s, _, hsnap, _, hp⟩
    · exact ⟨e, hsnap ▸ he, rfl, rfl⟩
    · obtain ⟨list, _, hlist⟩ := hp.keyList
      obtain ⟨hlisted, hrole, _, _⟩ := successorKeyList_ok hlist
      obtain ⟨e', he', hkey'⟩ := hlisted e he hc
      refine ⟨e', hsnap ▸ he', hkey', ?_⟩
      have hinstalled := hroles e he hc
      rw [← hkey'] at hinstalled
      exact (hrole e' he' e.role hinstalled).symm

/-- Roles stay recorded across a passing successor. -/
theorem rolesRecorded_push {chain : ValidatedChain} {header : EventHeader} {preimage : EventPreimage}
    {digest : Digest} {applied : Applied} {fields unit : Bytes}
    (h : ContentPassed C (.next chain) header preimage digest applied) (hroles : RolesRecorded chain) :
    RolesRecorded (chain.push C (Accepted.new applied fields digest preimage unit)) := by
  have hhead : (chain.push C (Accepted.new applied fields digest preimage unit)).head.snapshot =
      applied.snapshot := by
    simp [ValidatedChain.push, ValidatedChain.record, ValidatedChain.head, Accepted.new, chainEvent]
  have hkept : ∀ key role, chain.installedRole key = some role →
      (chain.push C (Accepted.new applied fields digest preimage unit)).installedRole key =
        some role := by
    intro key role hr
    obtain ⟨v, hv, hvr⟩ := Option.map_eq_some_iff.mp hr
    rw [ValidatedChain.installedRole, ValidatedChain.push, ValidatedChain.record,
      OrderedMap.get_orInsertAll]
    simp [hv, hvr]
  intro e he hc
  rw [hhead] at he
  rcases snapshot_of_passed C h with ⟨_, _, hsnap⟩ | ⟨s, _, hsnap, hinstalled, hp⟩
  · exact hkept e.key e.role (hroles e (hsnap ▸ he) hc)
  · rw [← hsnap] at he
    obtain ⟨list, hli, hlist⟩ := hp.keyList
    obtain ⟨_, hrole, hcurrent, hlisted⟩ := successorKeyList_ok hlist
    cases hin : chain.installedRole e.key with
    | some role =>
      have hreq := hrole e he role hin
      rw [← hreq]
      exact hkept e.key role hin
    | none =>
      -- A key no event installed is one this event installs.
      have hnew : e.key ∉ chain.installed.map Prod.fst := by
        rw [← OrderedMap.get_eq_none_iff]
        simpa [ValidatedChain.installedRole] using hin
      have hmem : (e.key, e.role) ∈ applied.installed := by
        rw [hinstalled, hli]
        rcases hcurrent e he hc with hmem | ⟨e', he', hc', hk'⟩
        · exact hmem
        · have hr' := hroles e' he' hc'
          rw [hk', hin] at hr'
          cases hr'
      have hone : ∀ t ∈ applied.installed, t.1 = e.key → t.2 = e.role := by
        intro t ht htk
        rw [hinstalled, hli] at ht
        obtain ⟨e', he', rfl⟩ := hlisted t ht
        rw [List.inj_on_of_nodup_map hp.distinct he' he htk]
      rw [ValidatedChain.installedRole, ValidatedChain.push, ValidatedChain.record]
      rw [show (Accepted.new applied fields digest preimage unit).installed = applied.installed from rfl,
        get_installed hnew hmem hone]
      rfl

theorem rolesRecorded_inception {identifier : Identifier} {header : EventHeader}
    {preimage : EventPreimage} {digest : Digest} {applied : Applied} {fields unit : Bytes}
    (h : ContentPassed C (.inception identifier) header preimage digest applied) :
    RolesRecorded (.fromInception C identifier (Accepted.new applied fields digest preimage unit)) := by
  obtain ⟨_, _, _, _, _, _, snapshot, hsnapshot, _, hinstalled, hafter⟩ := h.continuation
  obtain ⟨_, hpassed⟩ := checkSnapshot_passed hsnapshot
  obtain ⟨s, rfl⟩ : ∃ s, snapshot = some s := by
    cases snapshot with
    | none => simp [Position.chain?] at hafter
    | some s => exact ⟨s, rfl⟩
  have hsnap : s.snapshot = applied.snapshot := congrArg Prod.fst (Option.some.inj hafter)
  have hp := hpassed s rfl
  obtain ⟨list, hli, hlist⟩ := hp.keyList
  simp only [positionKeyList, inceptionKeyList, bind_ok_iff, exists_unit_iff, pure_ok_iff] at hlist
  obtain ⟨_, rfl⟩ := hlist
  rw [Option.elim_some, hli] at hinstalled
  intro e he hc
  have he' : e ∈ s.snapshot.keys := hsnap ▸ he
  have hmem : (e.key, e.role) ∈ applied.installed := by
    rw [hinstalled]
    exact List.mem_map.mpr ⟨e, he', rfl⟩
  have hone : ∀ t ∈ applied.installed, t.1 = e.key → t.2 = e.role := by
    intro t ht htk
    rw [hinstalled] at ht
    obtain ⟨f, hf, rfl⟩ := List.mem_map.mp ht
    rw [List.inj_on_of_nodup_map hp.distinct hf he' htk]
  rw [ValidatedChain.installedRole, ValidatedChain.fromInception, ValidatedChain.record]
  rw [show (Accepted.new applied fields digest preimage unit).installed = applied.installed from rfl,
    get_installed (by simp) hmem hone]
  rfl

end Step

section Run

/-- One position of a history: the event sits there by its own sequence, its
state is well formed, and its preimage links it to the event before. -/
structure PositionOk (history : List Accepted) (i : ℕ) (a : Accepted) : Prop where
  sequence : a.event.sequence = i
  state : StateOk a.event
  preimage : ∃ p, a.Carries p ∧ p.sequence.toNat = i ∧
    (i = 0 → p.predecessorDigest = 0 ∧ p.keyState = some a.event.snapshot) ∧
    ∀ j b, j+1 = i → history[j]? = some b → HandsOn b.event a.event p

theorem positionOk_append {history : List Accepted} {i : ℕ} {a : Accepted}
    (h : PositionOk history i a) (hi : i < history.length) (x : Accepted) :
    PositionOk (history ++ [x]) i a := by
  obtain ⟨p, hcarries, hseq, hzero, hbefore⟩ := h.preimage
  refine ⟨h.sequence, h.state, p, hcarries, hseq, hzero, ?_⟩
  intro j b hj hb
  rw [List.getElem?_append_left (by omega)] at hb
  exact hbefore j b hj hb

theorem inception_zero_fields {fields : Bytes} {header : EventHeader} {p : EventPreimage}
    (hread : readEvent fields (signedLenOf fields) = .ok (header, .ok p))
    (hzero : readInceptionZeroChecks fields = .ok ()) :
    p.sequence = 0 ∧ p.predecessorDigest = 0 := by
  obtain ⟨_, hheads, _, hfields⟩ := readEvent_ok hread
  simp only [readInceptionZeroChecks, bind_ok_iff, Prod.exists, mapError_ok_iff, exists_unit_iff,
    require_ok_iff, decide_eq_true_eq, readLeading, readU8_ok_iff, readDigest_ok_iff, readU64_ok_iff,
    pure_ok_iff, Prod.mk.injEq] at hzero
  obtain ⟨leading, _, ⟨kind, _, h1, identifier, _, h2, sequence, _, h3, predecessor, _, h4, rfl, _⟩,
    _, _, hs, hp⟩ := hzero
  -- Both readings start from the same bytes, so they read the same fields.
  rw [hfields] at h1
  simp only [EventHeader.out, List.append_assoc, List.singleton_append] at h1
  have hrest := (List.cons.inj h1).2
  rw [h2, h3, h4] at hrest
  obtain ⟨_, hrest⟩ := List.append_inj hrest (by simp [digestOut])
  obtain ⟨hseq, hrest⟩ := List.append_inj hrest (by simp [u64Out])
  obtain ⟨hpred, _⟩ := List.append_inj hrest (by simp [digestOut])
  have hseq' : header.sequence = sequence := (readU64_exact ()).injective trivial trivial hseq
  have hpred' : header.predecessorDigest = predecessor :=
    (readDigest_exact ()).injective trivial trivial hpred
  dsimp only at hs hp
  exact ⟨by rw [hheads.sequence, hseq', hs], by rw [hheads.predecessorDigest, hpred', hp]⟩

/-- The invariant of a whole history and the chain it builds. -/
structure KeyStateRun (history : List Accepted) (c : ValidatedChain) : Prop where
  length : history.length = c.later.length+1
  roles : RolesRecorded c
  positions : ∀ (i : ℕ) a, history[i]? = some a → PositionOk history i a

theorem keyStateRun_inception {bytes : Bytes} {identifier : Identifier} {a : Accepted}
    (h : checkInception C bytes (some identifier) .signed = .ok a) :
    KeyStateRun [a] (.fromInception C identifier a) := by
  obtain ⟨fields, header, p, applied, hread, hserved, hzero, hcontent, rfl⟩ := checkInception_ok C h
  have hpassed := checkContent_passed C hcontent
  obtain ⟨hseq, hpred⟩ := inception_zero_fields hread hzero
  have hid : identifier = identifierOf C fields := by simpa using hserved
  refine ⟨rfl, ?_, ?_⟩
  · rw [hid]
    exact rolesRecorded_inception C hpassed
  · intro i a ha
    obtain ⟨hi, rfl⟩ := List.getElem?_eq_some_iff.mp ha
    obtain rfl : i = 0 := by simpa using hi
    refine ⟨?_, stateOk_of_passed C hpassed (by simp [Position.chain?]) fields bytes, p,
      ⟨fields, rfl, carries_of_readEvent hread⟩, by simp [hseq], fun _ => ⟨hpred, ?_⟩, by omega⟩
    · change p.sequence.toNat = 0
      simp [hseq]
    · obtain ⟨_, _, _, _, _, _, snapshot, hsnapshot, _, _, hafter⟩ := hpassed.continuation
      change p.keyState = some applied.snapshot
      rw [(checkSnapshot_passed hsnapshot).1]
      simpa [Position.chain?, Option.map_map, Function.comp_def] using
        congrArg (Option.map Prod.fst) hafter

theorem keyStateRun_push {identifier : Identifier} {history : List Accepted} {c : ValidatedChain}
    (hbuilt : Builds C identifier history c) (hroom : c.later.length < vecMax)
    (ih : KeyStateRun history c) {bytes : Bytes} {a : Accepted}
    (h : checkSuccessor C c bytes .signed = .ok a) :
    KeyStateRun (history ++ [a]) (c.push C a) := by
  obtain ⟨last, hlast, hhead⟩ := recorded_head C (builds_recorded C hbuilt)
  have hlast' : history[history.length-1]? = some last := by
    rw [← List.getLast?_eq_getElem?]
    exact hlast
  have hposition := ih.positions _ _ hlast'
  obtain ⟨fields, header, p, applied, hread, hpred, hcontent, rfl⟩ := checkSuccessor_ok C h
  have hpassed := checkContent_passed C hcontent
  obtain ⟨_, hheads, _, _⟩ := readEvent_ok hread
  have hstate : StateOk c.head := hhead ▸ hposition.state
  -- The head is at the index of the last event, so a chain with room has a next number.
  have hsequence : c.head.sequence = c.later.length := by
    rw [← hhead, hposition.sequence, ih.length]
    omega
  have hfits : c.head.sequence+1 ≤ u64Max := by
    rw [hsequence]
    unfold vecMax at hroom
    unfold u64Max
    omega
  have hhands : HandsOn c.head (chainEvent applied (eventDigestOf C fields) p bytes) p :=
    handsOn_of_passed C hpassed hstate ih.roles hfits (hheads.predecessorDigest.trans hpred)
  have hlen := ih.length
  refine ⟨?_, rolesRecorded_push C hpassed ih.roles, ?_⟩
  · simp [ValidatedChain.push, ValidatedChain.record, hlen]
  · intro i b hb
    by_cases hi : i < history.length
    · rw [List.getElem?_append_left hi] at hb
      exact positionOk_append (ih.positions i b hb) hi _
    · have hbound := (List.getElem?_eq_some_iff.mp hb).1
      rw [List.length_append, List.length_singleton] at hbound
      obtain rfl : i = history.length := by omega
      rw [List.getElem?_append_right le_rfl, Nat.sub_self] at hb
      obtain rfl := Option.some.inj hb
      have hseq : p.sequence.toNat = history.length := by
        have hs : p.sequence.toNat = c.head.sequence+1 := hhands.sequence
        rw [hs, hsequence, hlen]
      refine ⟨hseq, stateOk_of_passed C hpassed (fun d hd => Option.some.inj hd ▸ hstate) fields bytes,
        p, ⟨fields, rfl, carries_of_readEvent hread⟩, hseq, by omega, ?_⟩
      intro j b hj hb
      rw [List.getElem?_append_left (by omega), show j = history.length-1 by omega, hlast'] at hb
      obtain rfl := Option.some.inj hb
      rw [hhead]
      exact hhands

theorem builds_keyStateRun {identifier : Identifier} {history : List Accepted} {c : ValidatedChain}
    (h : Builds C identifier history c) : KeyStateRun history c := by
  induction h with
  | inception checked => exact keyStateRun_inception C checked
  | push built room checked ih => exact keyStateRun_push C built room ih checked

/-- The key state of every chain the validator builds is well formed at every
position, and every event hands it on from the event before. -/
theorem key_state_well_formed {identifier : Identifier} {history : List Accepted}
    {c : ValidatedChain} (h : Builds C identifier history c) :
    c.events = history.map (·.event) ∧
      ∀ (i : ℕ) a, history[i]? = some a → PositionOk history i a :=
  ⟨(builds_recorded C h).events, (builds_keyStateRun C h).positions⟩

/-- The theorem at the recovery of a two-event chain. -/
theorem key_state_well_formed_sample :
    PositionOk [sampleAccepted, sampleRecovered] 1 sampleRecovered :=
  (key_state_well_formed sampleCrypto sampleRecovered_builds).2 1 sampleRecovered rfl

end Run

end ScpCore.Kel
