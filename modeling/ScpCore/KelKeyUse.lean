import ScpCore.KelCheck

/-! Pre-rotation keys are single-use on every chain the validator builds. The
chain's maps hold exactly what its events installed, fixed and revealed, and
no standing commitment commits to a key that was already used. -/

namespace ScpCore.Kel

variable (C : Crypto)

def Accepted.installedKeys (a : Accepted) : List Key := a.installed.map Prod.fst

/-- The keys an event used: those it installs and those it reveals. -/
def Accepted.used (a : Accepted) : List Key := a.installedKeys ++ a.revealed

/-- The chain's maps hold exactly what the events of `history` did. -/
structure Recorded (history : List Accepted) (c : ValidatedChain) : Prop where
  events : c.events = history.map (·.event)
  installed : ∀ key, key ∈ c.installed.map Prod.fst ↔ ∃ a ∈ history, key ∈ a.installedKeys
  installedCommitments : ∀ d, d ∈ c.installedCommitments.map Prod.fst ↔
    ∃ a ∈ history, ∃ key ∈ a.installedKeys, prerotationCommitment C key = d
  fixed : ∀ d, d ∈ c.fixed.map Prod.fst ↔ ∃ a ∈ history, d ∈ a.fixed
  revealed : ∀ key, key ∈ c.revealed.map Prod.fst ↔ ∃ a ∈ history, key ∈ a.revealed
  revealedCommitments : ∀ d, d ∈ c.revealedCommitments.map Prod.fst ↔
    ∃ a ∈ history, ∃ key ∈ a.revealed, prerotationCommitment C key = d

/-- Recording one more event records one more entry of the history. -/
theorem recorded_record {history : List Accepted} {c : ValidatedChain} {a : Accepted}
    (h : Recorded C history c) (later : List ChainEvent)
    (hl : c.inception :: later = (history ++ [a]).map (·.event)) :
    Recorded C (history ++ [a]) ({ c with later := later }.record C a) := by
  constructor
  · exact hl
  all_goals intro k
  all_goals simp only [ValidatedChain.record, OrderedMap.mem_keys_orInsertAll, List.map_map,
    h.installed, h.installedCommitments, h.fixed, h.revealed, h.revealedCommitments,
    Accepted.installedKeys]
  all_goals simp [or_and_right, exists_or]

theorem builds_recorded {identifier : Identifier} {history : List Accepted} {c : ValidatedChain}
    (h : Builds C identifier history c) : Recorded C history c := by
  induction h with
  | @inception bytes accepted checked =>
    constructor
    · rfl
    all_goals intro k
    all_goals simp [ValidatedChain.fromInception, ValidatedChain.record,
      OrderedMap.mem_keys_orInsertAll, Accepted.installedKeys]
  | @push history c bytes accepted built room checked ih =>
    apply recorded_record C ih
    rw [List.map_append, ← ih.events]
    rfl

section Step

/-- What the freshness check leaves: installed keys and fixed commitments are
disjoint in both directions, and no fixed commitment commits to a revealed key. -/
theorem checkFreshness_ok {position : Position} {preimage : EventPreimage}
    {snapshot : Option AppliedSnapshot} {standing : Option StandingCommitment}
    (h : checkFreshness C position preimage snapshot standing = .ok ()) :
    (∀ t ∈ snapshot.elim [] (·.installed), prerotationCommitment C t.1 ∉ fixedCommitments standing ∧
      ∀ c ∈ position.chain?, prerotationCommitment C t.1 ∉ c.fixed.map Prod.fst) ∧
    ∀ d ∈ fixedCommitments standing, d ∉ preimage.revealedKeys.map (prerotationCommitment C) ∧
      ∀ c ∈ position.chain?, d ∉ c.installedCommitments.map Prod.fst ∧
        d ∉ c.revealedCommitments.map Prod.fst := by
  simp only [checkFreshness, bind_ok_iff, exists_unit_iff, checkEach_ok_iff, require_ok_iff,
    Bool.not_eq_true', Bool.or_eq_false_iff, decide_eq_false_iff_not] at h
  obtain ⟨hinstalled, hfixed⟩ := h
  constructor
  · intro t ht
    obtain ⟨_, hown, hchain⟩ := hinstalled t ht
    refine ⟨hown, ?_⟩
    intro c hc
    rw [Option.mem_def] at hc
    rw [hc, Option.any_some] at hchain
    exact (OrderedMap.contains_eq_false_iff _ _).mp hchain
  · intro d hd
    obtain ⟨hin, hown, hrev⟩ := hfixed d hd
    refine ⟨hown, ?_⟩
    intro c hc
    rw [Option.mem_def] at hc
    rw [hc, Option.any_some] at hin hrev
    exact ⟨(OrderedMap.contains_eq_false_iff _ _).mp hin,
      (OrderedMap.contains_eq_false_iff _ _).mp hrev⟩

/-- An added entry was installed by no event of the chain. -/
theorem classifyEntry_added {chain : ValidatedChain} {kind : EventKind}
    {current : OrderedMap Key ℕ} {entry : KeyEntry} {r : Segment × KeyEntry}
    (h : classifyEntry chain kind current entry = .ok r) (hadded : r.1 = .added) :
    r.2 = entry ∧ entry.key ∉ chain.installed.map Prod.fst := by
  simp only [classifyEntry, bind_ok_iff, exists_unit_iff, require_ok_iff, pure_ok_iff] at h
  obtain ⟨_, segment, _, _, hnew, rfl⟩ := h
  refine ⟨rfl, ?_⟩
  dsimp only at hadded
  rw [hadded] at hnew
  rw [← OrderedMap.get_eq_none_iff]
  simpa [ValidatedChain.installedRole] using hnew

theorem successorKeyList_installed {chain : ValidatedChain} {kind : EventKind}
    {snapshot : KeyStateSnapshot} {list : KeyList}
    (h : successorKeyList chain kind snapshot = .ok list) (t : Key × KeyRole)
    (ht : t ∈ list.installed) : t.1 ∉ chain.installed.map Prod.fst := by
  simp only [successorKeyList, bind_ok_iff, exists_unit_iff, pure_ok_iff] at h
  obtain ⟨_, segments, hsegments, _, _, _, rfl⟩ := h
  obtain ⟨⟨segment, entry⟩, hmem, hsome⟩ := List.mem_filterMap.mp ht
  obtain ⟨e, _, he⟩ := mapEach_mem_right hsegments hmem
  dsimp only at hsome
  split_ifs at hsome with hadded
  obtain ⟨rfl, hnew⟩ := classifyEntry_added he hadded
  obtain rfl := Option.some.inj hsome
  exact hnew

/-- No key the snapshot installs was installed by the chain before. -/
theorem checkSnapshot_installed {chain : ValidatedChain} {preimage : EventPreimage}
    {installedRoot : Option InstalledRootSet} {snapshot : Option AppliedSnapshot}
    (h : checkSnapshot (.next chain) preimage installedRoot = .ok snapshot) (t : Key × KeyRole)
    (ht : t ∈ snapshot.elim [] (·.installed)) : t.1 ∉ chain.installed.map Prod.fst := by
  unfold checkSnapshot at h
  split at h
  · obtain rfl := Except.ok.inj h
    simp at ht
  · simp only [bind_ok_iff, exists_unit_iff, okOr_ok_iff, pure_ok_iff] at h
    obtain ⟨_, _, _, _, list, hlist, _, _, rfl⟩ := h
    exact successorKeyList_installed hlist t ht

/-- The commitment standing after an event: unchanged on a kind that reveals
nothing, or what its continuation says. -/
inductive CommitmentStep (before : Option StandingCommitment) (a : Accepted) : Prop
  | kept (same : before = some a.event.commitment) (fixes : a.fixed = [])
      (kind : a.event.kind.isRevealAuthorized = false)
  | fixes (commitment : FixedCommitment) (after : a.event.commitment = .fixed commitment)
      (fixed : a.fixed = commitment.commitments.map (·.commitment)) (distinct : a.fixed.Nodup)
      (root : a.event.root.threshold.toNat ≤ commitment.nextThreshold.toNat)
      (size : commitment.nextThreshold.toNat ≤ commitment.commitments.length)
  | abandons (after : a.event.commitment.isAbandoned = true) (fixes : a.fixed = [])

theorem commitmentStep_of_passed {position : Position} {header : EventHeader}
    {preimage : EventPreimage} {digest : Digest} {applied : Applied}
    (h : ContentPassed C position header preimage digest applied) (fields unit : Bytes) :
    CommitmentStep (position.chain?.map (·.head.commitment))
      (Accepted.new applied fields digest preimage unit) := by
  obtain ⟨continuation, hpresent, standing, hnext, hfixed, hafter, _⟩ := h.continuation
  unfold checkNextCommitment at hnext
  split at hnext
  · -- No continuation: the kind reveals nothing and the standing commitment stays.
    obtain rfl := Except.ok.inj hnext
    have hkind : preimage.kind = .keyState := by
      unfold checkContinuationPresent at hpresent
      split at hpresent
      all_goals first | assumption | cases hpresent
    refine .kept ?_ hfixed ?_
    · rw [Option.none_or] at hafter
      exact hafter
    · simp [Accepted.new, chainEvent, hkind, EventKind.isRevealAuthorized]
  · split at hnext
    · cases hnext
    · obtain rfl := Except.ok.inj hnext
      refine .abandons ?_ hfixed
      have hc : applied.commitment = .abandoned preimage.sequence digest := by simpa using hafter.symm
      simp [Accepted.new, chainEvent, hc, StandingCommitment.isAbandoned]
  · rename_i commitment
    simp only [bind_ok_iff, exists_unit_iff, require_ok_iff, decide_eq_true_eq,
      checkThreshold_ok_iff, pure_ok_iff] at hnext
    obtain ⟨hnodup, ⟨_, hsize⟩, hroot, rfl⟩ := hnext
    have hc : applied.commitment = .fixed commitment := by simpa using hafter.symm
    refine .fixes commitment hc hfixed ?_ hroot hsize
    rw [show (Accepted.new applied fields digest preimage unit).fixed = applied.fixed from rfl, hfixed]
    exact hnodup

theorem checkIndices_ok {role : SignerGroupRole} {keys : KeySet} {seen result : List UInt8}
    {signers : List NamedSigner} (h : checkIndices role keys seen signers = .ok result)
    (hseen : seen.Nodup) :
    result.length = seen.length + signers.length ∧ (signers.map (·.index)).Nodup ∧
      ∀ s ∈ signers, s.index ∉ seen := by
  induction signers generalizing seen with
  | nil =>
    obtain rfl := Except.ok.inj h
    simp
  | cons s signers ih =>
    simp only [checkIndices, bind_ok_iff, exists_unit_iff, require_ok_iff, decide_eq_true_eq] at h
    obtain ⟨hnew, _, hrest⟩ := h
    obtain ⟨hlen, hnodup, hall⟩ := ih hrest (List.nodup_cons.mpr ⟨hnew, hseen⟩)
    refine ⟨?_, ?_, ?_⟩
    · rw [hlen, List.length_cons, List.length_cons]
      omega
    · rw [List.map_cons, List.nodup_cons]
      refine ⟨?_, hnodup⟩
      intro hm
      obtain ⟨t, ht, heq⟩ := List.mem_map.mp hm
      exact hall t ht (by simp [heq])
    · intro t ht
      rcases List.mem_cons.mp ht with rfl | ht
      · exact hnew
      · exact fun hm => hall t ht (List.mem_cons_of_mem _ hm)

/-- Keys revealed at distinct indices of a list of distinct commitments, each
matching its index, are distinct. -/
theorem revealed_nodup (commitments : List CommitmentEntry)
    (hd : (commitments.map (·.commitment)).Nodup) (signers : List NamedSigner) (keys : List Key)
    (hlen : signers.length = keys.length) (hi : (signers.map (·.index)).Nodup)
    (hmatch : ∀ t ∈ signers.zip keys, ∃ entry, commitments[t.1.index.toNat]? = some entry ∧
      entry.commitment = prerotationCommitment C t.2) : keys.Nodup := by
  induction signers generalizing keys with
  | nil =>
    have : keys = [] := List.length_eq_zero_iff.mp hlen.symm
    simp [this]
  | cons s signers ih =>
    obtain ⟨key, keys, rfl⟩ := List.exists_cons_of_length_eq_add_one hlen.symm
    rw [List.map_cons, List.nodup_cons] at hi
    have hlen' : signers.length = keys.length := by simpa using hlen
    rw [List.nodup_cons]
    refine ⟨?_, ih keys hlen' hi.2 (fun t ht => hmatch t (by simp [ht]))⟩
    intro hmem
    obtain ⟨n, hn, hget⟩ := List.getElem_of_mem hmem
    have hn' : n < signers.length := by omega
    obtain ⟨e, he, hec⟩ := hmatch (s, key) (by simp)
    obtain ⟨e', he', hec'⟩ := hmatch (signers[n], keys[n]) (by
      refine List.mem_cons_of_mem _ (List.mem_iff_getElem.mpr ⟨n, by simp [hn, hn'], by simp⟩))
    dsimp only at he hec he' hec'
    -- Equal commitments sit at one index, but the two signers name different ones.
    have hsame : s.index.toNat = signers[n].index.toNat := by
      obtain ⟨h1, e1⟩ := List.getElem?_eq_some_iff.mp he
      obtain ⟨h2, e2⟩ := List.getElem?_eq_some_iff.mp he'
      have hm1 : s.index.toNat < (commitments.map (·.commitment)).length := by simpa using h1
      have hm2 : signers[n].index.toNat < (commitments.map (·.commitment)).length := by simpa using h2
      have heq : (commitments.map (·.commitment))[s.index.toNat] =
          (commitments.map (·.commitment))[signers[n].index.toNat] := by
        rw [List.getElem_map, List.getElem_map, e1, e2, hec, hec', hget]
      exact hd.getElem_inj_iff.mp heq
    exact hi.1 (List.mem_map.mpr ⟨signers[n], List.getElem_mem _, UInt8.toNat_inj.mp hsame.symm⟩)

/-- The first signer group of a reveal-authorized event is its reveal group. -/
theorem reveal_group_of_passes {header : EventHeader} {signedLen : ℕ}
    (h : header.Passes signedLen) (hk : header.kind.isRevealAuthorized = true) :
    ∃ group ∈ header.groups, group.role = .reveal := by
  have hroles := h.roles
  have hmem : SignerGroupRole.reveal ∈ header.groups.map (·.role) := by
    generalize header.kind = kind at hroles hk
    generalize header.standingRoot = root at hroles
    cases kind with
    | inception => cases hk
    | keyState => cases hk
    | commitmentRollover => simp [← Option.some.inj hroles]
    | rootRecovery =>
      rcases root with _ | _ | _
      · cases hroles
      · simp [← Option.some.inj hroles]
      · simp [← Option.some.inj hroles]
  obtain ⟨group, hg, hr⟩ := List.mem_map.mp hmem
  exact ⟨group, hg, hr⟩

/-- A reveal-authorized event reveals distinct keys of the commitment standing
at its predecessor, at least its threshold of them. -/
theorem checkGroups_reveal {chain : ValidatedChain} {header : EventHeader} {preimage : EventPreimage}
    {root : Option InstalledRootSet} {keySets : List KeySet} {commitment : FixedCommitment}
    (h : checkGroups C (.next chain) header preimage root = .ok keySets)
    (hc : chain.head.commitment = .fixed commitment)
    {group : HeaderGroup} (hg : group ∈ header.groups) (hr : group.role = .reveal) :
    (∀ key ∈ preimage.revealedKeys,
      prerotationCommitment C key ∈ commitment.commitments.map (·.commitment)) ∧
    commitment.nextThreshold.toNat ≤ preimage.revealedKeys.length ∧
    ((commitment.commitments.map (·.commitment)).Nodup → preimage.revealedKeys.Nodup) := by
  obtain ⟨keys, _, hgroup⟩ := mapEach_mem_left h hg
  simp only [bind_ok_iff, exists_unit_iff, require_ok_iff, pure_ok_iff] at hgroup
  obtain ⟨keys', hkeys, seen, hseen, hreach, rfl⟩ := hgroup
  simp only [groupKeySet, hr, hc, bind_ok_iff, exists_unit_iff, okOr_ok_iff, revealKeySet,
    Option.some.injEq] at hkeys
  obtain ⟨hreveal, rfl⟩ := hkeys
  simp only [checkReveal, bind_ok_iff, exists_unit_iff, require_ok_iff, decide_eq_true_eq,
    checkEach_ok_iff] at hreveal
  obtain ⟨hlen, hmatch⟩ := hreveal
  have hentry : ∀ t ∈ group.signers.zip preimage.revealedKeys, ∃ entry,
      commitment.commitments[t.1.index.toNat]? = some entry ∧
        entry.commitment = prerotationCommitment C t.2 := by
    intro t ht
    simpa [Option.any_eq_true] using hmatch t ht
  obtain ⟨hcount, hnodup, _⟩ := checkIndices_ok hseen List.nodup_nil
  refine ⟨?_, ?_, fun hd => revealed_nodup C _ hd _ _ hlen hnodup hentry⟩
  · intro key hkey
    have hzip : key ∈ (group.signers.zip preimage.revealedKeys).map Prod.snd := by
      rw [List.map_snd_zip (le_of_eq hlen.symm)]
      exact hkey
    obtain ⟨t, ht, rfl⟩ := List.mem_map.mp hzip
    obtain ⟨entry, he, hec⟩ := hentry t ht
    exact List.mem_map.mpr ⟨entry, List.mem_of_getElem? he, hec⟩
  · have hreach' : commitment.nextThreshold.toNat ≤ seen.length := by simpa [reaches] using hreach
    rw [List.length_nil] at hcount
    omega

/-- What one accepted event does with keys, given the events before it and
the commitment standing at its predecessor. -/
structure KeyUseStep (history : List Accepted) (before : Option StandingCommitment)
    (a : Accepted) : Prop where
  installedOnce : ∀ b ∈ history, ∀ key ∈ a.installedKeys, key ∉ b.installedKeys
  installedUncommitted : ∀ key ∈ a.installedKeys, prerotationCommitment C key ∉ a.fixed ∧
    ∀ b ∈ history, prerotationCommitment C key ∉ b.fixed
  fixedUnused : ∀ d ∈ a.fixed, (∀ key ∈ a.revealed, prerotationCommitment C key ≠ d) ∧
    ∀ b ∈ history, ∀ key ∈ b.used, prerotationCommitment C key ≠ d
  commitment : CommitmentStep before a
  silent : a.event.kind.isRevealAuthorized = false → a.revealed = []
  reveals : ∀ fc, before = some (.fixed fc) → a.event.kind.isRevealAuthorized = true →
    (∀ key ∈ a.revealed, prerotationCommitment C key ∈ fc.commitments.map (·.commitment)) ∧
    fc.nextThreshold.toNat ≤ a.revealed.length ∧
    ((fc.commitments.map (·.commitment)).Nodup → a.revealed.Nodup)
  live : ∀ standing ∈ before, standing.isAbandoned = false

theorem revealedKeys_of_sentinels {preimage : EventPreimage}
    (h : checkSentinels preimage = .ok ()) (hk : preimage.kind.isRevealAuthorized = false) :
    preimage.revealedKeys = [] := by
  simp only [checkSentinels, bind_ok_iff, exists_unit_iff, hk] at h
  have h8 := h.2.1
  cases hr : preimage.revealedKeys with
  | nil => rfl
  | cons key keys => simp [hr, checkField] at h8

/-- The installed, fixed and revealed lists of an accepted event are those its
content check passed. -/
theorem fresh_of_passed {position : Position} {header : EventHeader} {preimage : EventPreimage}
    {digest : Digest} {applied : Applied}
    (h : ContentPassed C position header preimage digest applied) :
    (∀ key ∈ applied.installed.map Prod.fst, prerotationCommitment C key ∉ applied.fixed ∧
      ∀ c ∈ position.chain?, prerotationCommitment C key ∉ c.fixed.map Prod.fst ∧
        key ∉ c.installed.map Prod.fst) ∧
    ∀ d ∈ applied.fixed, (∀ key ∈ preimage.revealedKeys, prerotationCommitment C key ≠ d) ∧
      ∀ c ∈ position.chain?, d ∉ c.installedCommitments.map Prod.fst ∧
        d ∉ c.revealedCommitments.map Prod.fst := by
  obtain ⟨_, _, standing, _, hfixed, _, snapshot, hsnapshot, hfresh, hinstalled, _⟩ := h.continuation
  obtain ⟨hfi, hff⟩ := checkFreshness_ok C hfresh
  rw [hfixed, hinstalled]
  constructor
  · intro key hkey
    obtain ⟨t, ht, rfl⟩ := List.mem_map.mp hkey
    refine ⟨(hfi t ht).1, fun c hc => ⟨(hfi t ht).2 c hc, ?_⟩⟩
    cases position with
    | inception _ => simp [Position.chain?] at hc
    | next chain =>
      obtain rfl := Option.some.inj hc
      exact checkSnapshot_installed hsnapshot t ht
  · intro d hd
    refine ⟨?_, (hff d hd).2⟩
    rintro key hkey rfl
    exact (hff _ hd).1 (List.mem_map_of_mem hkey)

theorem keyUseStep_inception {bytes : Bytes} {served : Option Identifier} {signing : Signing}
    {a : Accepted} (h : checkInception C bytes served signing = .ok a) : KeyUseStep C [] none a := by
  obtain ⟨fields, header, preimage, applied, hread, _, hzero, hcontent, rfl⟩ := checkInception_ok C h
  have hpassed := checkContent_passed C hcontent
  obtain ⟨hinstalled, hfixed⟩ := fresh_of_passed C hpassed
  refine {
    installedOnce := by simp
    installedUncommitted := fun key hkey => ⟨(hinstalled key hkey).1, by simp⟩
    fixedUnused := ?_
    commitment := commitmentStep_of_passed C hpassed fields bytes
    silent := ?_
    reveals := by simp
    live := by simp }
  · intro d hd
    refine ⟨?_, by simp⟩
    intro key hkey
    exact (hfixed d hd).1 key (hpassed.revealed ▸ hkey)
  · intro hk
    exact hpassed.revealed.trans (revealedKeys_of_sentinels hpassed.sentinels hk)

theorem keyUseStep_successor {chain : ValidatedChain} {history : List Accepted}
    (hrec : Recorded C history chain) {bytes : Bytes} {signing : Signing} {a : Accepted}
    (h : checkSuccessor C chain bytes signing = .ok a) :
    KeyUseStep C history (some chain.head.commitment) a := by
  obtain ⟨fields, header, preimage, applied, hread, _, hcontent, rfl⟩ := checkSuccessor_ok C h
  have hpassed := checkContent_passed C hcontent
  obtain ⟨hinstalled, hfixed⟩ := fresh_of_passed C hpassed
  obtain ⟨hpasses, hheads, _, _⟩ := readEvent_ok hread
  -- The checks look digests up in the sets of the chain, which record the history.
  refine {
    installedOnce := ?_
    installedUncommitted := ?_
    fixedUnused := ?_
    commitment := commitmentStep_of_passed C hpassed fields bytes
    silent := ?_
    reveals := ?_
    live := ?_ }
  · intro b hb key hkey hbkey
    exact ((hinstalled key hkey).2 chain rfl).2 ((hrec.installed key).mpr ⟨b, hb, hbkey⟩)
  · intro key hkey
    refine ⟨(hinstalled key hkey).1, fun b hb hbf => ?_⟩
    exact ((hinstalled key hkey).2 chain rfl).1 ((hrec.fixed _).mpr ⟨b, hb, hbf⟩)
  · intro d hd
    refine ⟨fun key hkey => (hfixed d hd).1 key (hpassed.revealed ▸ hkey), ?_⟩
    rintro b hb key hkey rfl
    obtain ⟨hni, hnr⟩ := (hfixed _ hd).2 chain rfl
    rcases List.mem_append.mp hkey with hkey | hkey
    · exact hni ((hrec.installedCommitments _).mpr ⟨b, hb, key, hkey, rfl⟩)
    · exact hnr ((hrec.revealedCommitments _).mpr ⟨b, hb, key, hkey, rfl⟩)
  · intro hk
    exact hpassed.revealed.trans (revealedKeys_of_sentinels hpassed.sentinels hk)
  · intro fc hfc hk
    have hk' : header.kind.isRevealAuthorized = true := by
      rw [← hheads.kind]
      exact hk
    obtain ⟨group, hg, hr⟩ := reveal_group_of_passes hpasses hk'
    have hgroups := checkGroups_reveal C hpassed.groups (Option.some.inj hfc) hg hr
    rwa [← hpassed.revealed] at hgroups
  · intro standing hs
    obtain rfl := Option.some.inj hs
    have hlink := hpassed.link chain rfl
    simp only [checkLink, bind_ok_iff, exists_unit_iff, require_ok_iff] at hlink
    simpa using hlink.1

end Step

section Run

/-- What `b` may do with the keys of an earlier event `a`. -/
structure UsesAfter (a b : Accepted) : Prop where
  installed : ∀ key ∈ b.installedKeys, key ∉ a.installedKeys
  revealed : ∀ key ∈ b.revealed, key ∉ a.used
  fixed : ∀ d ∈ b.fixed, ∀ key ∈ a.used, prerotationCommitment C key ≠ d

/-- How an event uses the commitment standing after the event before it. -/
structure RevealsFrom (a b : Accepted) : Prop where
  live : a.event.commitment.isAbandoned = false
  reveals : b.event.kind.isRevealAuthorized = true → ∃ fc, a.event.commitment = .fixed fc ∧
    (∀ key ∈ b.revealed, prerotationCommitment C key ∈ fc.commitments.map (·.commitment)) ∧
    fc.nextThreshold.toNat ≤ b.revealed.length ∧ b.revealed.Nodup

/-- A commitment list that may stand after `history`: distinct, fixed by one of
its events, and committing to no key any of them used. -/
structure Unspent (history : List Accepted) (fc : FixedCommitment) : Prop where
  distinct : (fc.commitments.map (·.commitment)).Nodup
  fixed : ∀ d ∈ fc.commitments.map (·.commitment), ∃ b ∈ history, d ∈ b.fixed
  unused : ∀ d ∈ fc.commitments.map (·.commitment), ∀ b ∈ history, ∀ key ∈ b.used,
    prerotationCommitment C key ≠ d

/-- The invariant of a whole history. -/
structure KeyUse (history : List Accepted) : Prop where
  pairs : history.Pairwise (UsesAfter C)
  own : ∀ a ∈ history, ∀ d ∈ a.fixed, ∀ key ∈ a.used, prerotationCommitment C key ≠ d
  links : history.IsChain (RevealsFrom C)
  standing : ∀ last ∈ history.getLast?, ∀ fc, last.event.commitment = .fixed fc →
    Unspent C history fc

theorem own_of_step {history : List Accepted} {before : Option StandingCommitment} {a : Accepted}
    (h : KeyUseStep C history before a) :
    ∀ d ∈ a.fixed, ∀ key ∈ a.used, prerotationCommitment C key ≠ d := by
  intro d hd key hkey
  rcases List.mem_append.mp hkey with hkey | hkey
  · rintro rfl
    exact (h.installedUncommitted key hkey).1 hd
  · exact (h.fixedUnused d hd).1 key hkey

/-- The commitment standing after a step is unspent, whether the step fixed it
or let it stand. -/
theorem unspent_of_step {history : List Accepted} {before : Option StandingCommitment} {a : Accepted}
    (h : KeyUseStep C history before a)
    (hbefore : ∀ fc, before = some (.fixed fc) → Unspent C history fc) (fc : FixedCommitment)
    (hfc : a.event.commitment = .fixed fc) : Unspent C (history ++ [a]) fc := by
  rcases h.commitment with ⟨same, hnone, kind⟩ | ⟨commitment, after, fixed, distinct, _, _⟩ | ⟨after, _⟩
  · rw [hfc] at same
    have hold := hbefore fc same
    refine ⟨hold.distinct, ?_, ?_⟩
    · intro d hd
      obtain ⟨b, hb, hbd⟩ := hold.fixed d hd
      exact ⟨b, by simp [hb], hbd⟩
    · intro d hd b hb key hkey
      rcases List.mem_append.mp hb with hb | hb
      · exact hold.unused d hd b hb key hkey
      · obtain rfl := List.mem_singleton.mp hb
        rcases List.mem_append.mp hkey with hkey | hkey
        · -- An installed key's commitment was never fixed.
          rintro rfl
          obtain ⟨f, hf, hfd⟩ := hold.fixed _ hd
          exact (h.installedUncommitted key hkey).2 f hf hfd
        · rw [h.silent kind] at hkey
          simp at hkey
  · rw [hfc] at after
    obtain rfl := StandingCommitment.fixed.inj after
    rw [fixed] at distinct
    refine ⟨distinct, ?_, ?_⟩
    · intro d hd
      exact ⟨a, by simp, fixed ▸ hd⟩
    · intro d hd b hb key hkey
      have hda : d ∈ a.fixed := fixed ▸ hd
      rcases List.mem_append.mp hb with hb | hb
      · exact (h.fixedUnused d hda).2 b hb key hkey
      · obtain rfl := List.mem_singleton.mp hb
        exact own_of_step C h d hda key hkey
  · rw [hfc] at after
    cases after

/-- One accepted successor keeps the invariant. -/
theorem keyUse_snoc {history : List Accepted} {last a : Accepted} (h : KeyUse C history)
    (hlast : history.getLast? = some last)
    (hstep : KeyUseStep C history (some last.event.commitment) a) : KeyUse C (history ++ [a]) := by
  have hstanding : ∀ fc, some last.event.commitment = some (.fixed fc) → Unspent C history fc :=
    fun fc hfc => h.standing last hlast fc (Option.some.inj hfc)
  have hlive := hstep.live _ rfl
  -- A live chain has a fixed commitment, whose keys are unspent so far.
  obtain ⟨fc, hfc⟩ : ∃ fc, last.event.commitment = .fixed fc := by
    cases hc : last.event.commitment with
    | fixed fc => exact ⟨fc, rfl⟩
    | abandoned s d => simp [hc, StandingCommitment.isAbandoned] at hlive
  have hunspent := hstanding fc (congrArg some hfc)
  refine ⟨?_, ?_, ?_, ?_⟩
  · rw [List.pairwise_append]
    refine ⟨h.pairs, List.pairwise_singleton _ _, ?_⟩
    intro b hb a' ha'
    obtain rfl := List.mem_singleton.mp ha'
    refine ⟨fun key hkey => hstep.installedOnce b hb key hkey, ?_,
      fun d hd key hkey => (hstep.fixedUnused d hd).2 b hb key hkey⟩
    intro key hkey hbkey
    cases hk : a'.event.kind.isRevealAuthorized with
    | false =>
      rw [hstep.silent hk] at hkey
      simp at hkey
    | true =>
      have hd := (hstep.reveals fc (congrArg some hfc) hk).1 key hkey
      exact hunspent.unused _ hd b hb key hbkey rfl
  · intro b hb
    rcases List.mem_append.mp hb with hb | hb
    · exact h.own b hb
    · obtain rfl := List.mem_singleton.mp hb
      exact own_of_step C hstep
  · rw [List.isChain_append]
    refine ⟨h.links, List.isChain_singleton _, ?_⟩
    intro x hx y hy
    rw [hlast] at hx
    obtain rfl := Option.some.inj hx
    obtain rfl : a = y := by simpa using hy
    refine ⟨hlive, fun hk => ⟨fc, hfc, ?_⟩⟩
    obtain ⟨hmem, hcount, hnodup⟩ := hstep.reveals fc (congrArg some hfc) hk
    exact ⟨hmem, hcount, hnodup hunspent.distinct⟩
  · intro x hx
    obtain rfl : a = x := by simpa using hx
    exact unspent_of_step C hstep hstanding

/-- The last event of a history is the head of the chain it builds. -/
theorem recorded_head {history : List Accepted} {c : ValidatedChain} (h : Recorded C history c) :
    ∃ last, history.getLast? = some last ∧ last.event = c.head := by
  have hl : (history.map (·.event)).getLast? = some c.head := by
    rw [← h.events, ValidatedChain.events, ValidatedChain.head, List.getLast?_cons]
  rw [List.getLast?_map, Option.map_eq_some_iff] at hl
  exact hl

theorem builds_keyUse {identifier : Identifier} {history : List Accepted} {c : ValidatedChain}
    (h : Builds C identifier history c) : KeyUse C history := by
  induction h with
  | @inception bytes a checked =>
    have hstep := keyUseStep_inception C checked
    refine ⟨List.pairwise_singleton _ _, ?_, List.isChain_singleton _, ?_⟩
    · intro b hb
      obtain rfl := List.mem_singleton.mp hb
      exact own_of_step C hstep
    · intro x hx
      obtain rfl : a = x := by simpa using hx
      exact unspent_of_step C hstep (by simp)
  | @push history c bytes a built room checked ih =>
    have hrec := builds_recorded C built
    obtain ⟨last, hlast, hhead⟩ := recorded_head C hrec
    have hstep := keyUseStep_successor C hrec checked
    rw [← hhead] at hstep
    exact keyUse_snoc C ih hlast hstep

/-- Pre-rotation keys are single-use on every chain the validator builds. -/
theorem prerotation_keys_single_use {identifier : Identifier} {history : List Accepted}
    {c : ValidatedChain} (h : Builds C identifier history c) :
    (∀ (i j : ℕ) (a b : Accepted), history[i]? = some a → history[j]? = some b → i ≠ j →
      ∀ key ∈ a.installedKeys, key ∉ b.installedKeys) ∧
    (∀ (i j : ℕ) (a b : Accepted), history[i]? = some a → history[j]? = some b → i ≠ j →
      ∀ key ∈ a.revealed, key ∉ b.revealed) ∧
    (∀ (i j : ℕ) (a b : Accepted), history[i]? = some a → history[j]? = some b → i < j →
      ∀ key ∈ b.revealed, key ∉ a.installedKeys) ∧
    (∀ (i j : ℕ) (a b : Accepted), history[i]? = some a → history[j]? = some b → i ≤ j → ∀ d ∈ b.fixed, ∀ key,
      key ∈ a.installedKeys ∨ key ∈ a.revealed → prerotationCommitment C key ≠ d) ∧
    (∀ (i : ℕ) (a b : Accepted), history[i]? = some a → history[i+1]? = some b →
      b.event.kind.isRevealAuthorized = true → ∃ fc, a.event.commitment = .fixed fc ∧
        (∀ key ∈ b.revealed, prerotationCommitment C key ∈ fc.commitments.map (·.commitment)) ∧
        fc.nextThreshold.toNat ≤ b.revealed.length ∧ b.revealed.Nodup) ∧
    ∀ (i : ℕ) (a b : Accepted), history[i]? = some a → history[i+1]? = some b →
      a.event.commitment.isAbandoned = false := by
  obtain ⟨hpairs, hown, hlinks, _⟩ := builds_keyUse C h
  -- What two events share is stated for the earlier and the later of them.
  have hlt : ∀ (i j : ℕ) (a b : Accepted), history[i]? = some a → history[j]? = some b → i < j → UsesAfter C a b := by
    intro i j a b ha hb hij
    obtain ⟨hi, rfl⟩ := List.getElem?_eq_some_iff.mp ha
    obtain ⟨hj, rfl⟩ := List.getElem?_eq_some_iff.mp hb
    exact List.pairwise_iff_getElem.mp hpairs i j hi hj hij
  have hnext : ∀ (i : ℕ) (a b : Accepted), history[i]? = some a → history[i+1]? = some b → RevealsFrom C a b := by
    intro i a b ha hb
    obtain ⟨hi, rfl⟩ := List.getElem?_eq_some_iff.mp ha
    obtain ⟨hj, rfl⟩ := List.getElem?_eq_some_iff.mp hb
    exact List.isChain_iff_getElem.mp hlinks i hj
  refine ⟨?_, ?_, ?_, ?_, fun i a b ha hb => (hnext i a b ha hb).reveals,
    fun i a b ha hb => (hnext i a b ha hb).live⟩
  · intro i j a b ha hb hij key hka hkb
    rcases Nat.lt_or_gt_of_ne hij with hij | hij
    · exact (hlt i j a b ha hb hij).installed key hkb hka
    · exact (hlt j i b a hb ha hij).installed key hka hkb
  · intro i j a b ha hb hij key hka hkb
    rcases Nat.lt_or_gt_of_ne hij with hij | hij
    · exact (hlt i j a b ha hb hij).revealed key hkb (List.mem_append_right _ hka)
    · exact (hlt j i b a hb ha hij).revealed key hka (List.mem_append_right _ hkb)
  · intro i j a b ha hb hij key hkb hka
    exact (hlt i j a b ha hb hij).revealed key hkb (List.mem_append_left _ hka)
  · intro i j a b ha hb hij d hd key hkey
    rcases Nat.lt_or_eq_of_le hij with hij | rfl
    · exact (hlt i j a b ha hb hij).fixed d hd key (List.mem_append.mpr hkey)
    · obtain rfl := Option.some.inj (ha.symm.trans hb)
      exact hown a (List.mem_of_getElem? ha) d hd key (List.mem_append.mpr hkey)

/-- The theorem at an inception followed by a recovery that reveals key 3. -/
theorem prerotation_keys_single_use_sample :
    sampleRecovered.revealed = [3] ∧ 3 ∉ sampleAccepted.installedKeys := by
  have hrevealed : sampleRecovered.revealed = [3] := by decide +kernel
  refine ⟨hrevealed, ?_⟩
  have h := (prerotation_keys_single_use sampleCrypto sampleRecovered_builds).2.2.1
  exact h 0 1 sampleAccepted sampleRecovered rfl rfl (by decide) 3 (by simp [hrevealed])

end Run

end ScpCore.Kel
