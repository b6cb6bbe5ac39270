import ScpCore.RecoveryMonotone

/-! Whether a terminal phase lasts, on a device with the platform-account member
and its local store. The merged phase of a digest is read from both members, so
it falls back where a call takes the terminal copy out of one member and its
write to the other, which still holds the digest at a pending phase, fails. -/

namespace ScpCore.Recovery
open ScpCore.Kel (Digest)

/-- A host that gives the platform-account member and no `largeBlob` handle. -/
structure StoreSet.Plain (set : StoreSet) : Prop where
  platform : set.platformAccount = .present
  blob : set.largeBlob = false

/-- What a device without a `largeBlob` handle reads where every store answers. -/
def Stores.view (s : Stores) : Snapshot :=
  ⟨s.platform.record, some s.platform.entry, .noHandle, s.sdkLocal.entry⟩

theorem snapshot_eq_view {set : StoreSet} (hset : set.Plain) {a : Answers} {s : Stores}
    {snapshot : Snapshot} (h : set.snapshot a s = .ok snapshot) : snapshot = s.view := by
  have hr := snapshot_reads h
  simp only [StoreSet.snapshot, bind_ok_iff, pure_ok_iff] at h
  obtain ⟨record, hrecord, platform, hplatform, blob, hblob, sdkLocal, -, rfl⟩ := h
  have hrec : record = s.platform.record ∧ record.isSome = true := by
    unfold StoreSet.resolveRecord at hrecord
    rw [hset.platform] at hrecord
    cases hans : a.readRecord with
    | some cause => simp [hans] at hrecord
    | none =>
      cases hstored : s.platform.record with
      | none => simp [hans, hstored] at hrecord
      | some r =>
        simp only [hans, hstored] at hrecord
        split_ifs at hrecord
        cases hrecord
        exact ⟨rfl, rfl⟩
  have hblob' : blob = .noHandle := by
    unfold StoreSet.snapshotBlob at hblob
    rw [hset.blob, Bool.not_false, if_pos rfl] at hblob
    cases hblob
    rfl
  have hplat : platform = some s.platform.entry := by
    obtain ⟨r, hr'⟩ := Option.isSome_iff_exists.mp hrec.2
    cases platform with
    | some e => rw [hr.platform e rfl]
    | none =>
      simp only [StoreSet.snapshotPlatform, hr'] at hplatform
      cases hc : checkedEntry .platformAccount (readEntry a.readPlatform s.platform.entry)
          set.identifier .synced with
      | error err => simp [hc, Except.map] at hplatform
      | ok x => simp [hc, Except.map] at hplatform
  have hlocal : sdkLocal = s.sdkLocal.entry := hr.sdkLocal
  rw [hrec.1, hplat, hblob', hlocal]
  rfl

namespace StoreEntry

/-- The entry holds `d` at `Discarded` or `Lost`. -/
def terminal (e : StoreEntry) (d : Digest) : Bool :=
  e.handle.elim false (fun h => h.eventDigest = d && !h.phase.isPending)

/-- The entry holds `d` at a pending phase. -/
def lags (e : StoreEntry) (d : Digest) : Bool :=
  e.handle.elim false (fun h => h.eventDigest = d && h.phase.isPending)

theorem terminal_iff {e : StoreEntry} {d : Digest} :
    e.terminal d = true ↔
      ∃ h, e.handle = some h ∧ h.eventDigest = d ∧ h.phase.isPending = false := by
  unfold terminal
  cases e.handle with
  | none => simp
  | some h => simp

theorem lags_iff {e : StoreEntry} {d : Digest} :
    e.lags d = true ↔ e.holds d = true ∧ e.terminal d = false := by
  unfold lags holds terminal
  cases e.handle with
  | none => simp
  | some h => by_cases hd : h.eventDigest = d <;> simp [hd]

theorem holds_of_terminal {e : StoreEntry} {d : Digest} (h : e.terminal d = true) :
    e.holds d = true := by
  obtain ⟨x, hx, hd, -⟩ := terminal_iff.mp h
  exact holds_iff.mpr ⟨x, hx, hd⟩

end StoreEntry

/-- A digest some member holds at a terminal phase is at one when merged, and no
other is. -/
theorem mergedPhase_terminal_iff {s : Snapshot} {d : Digest} :
    (∃ p, s.mergedPhase d = some p ∧ p.isPending = false) ↔
      ∃ m e, s.member m = some e ∧ e.terminal d = true := by
  have hmem (p : RecoveryPhase) : p ∈ s.phases d ↔
      ∃ m e h, s.member m = some e ∧ e.handle = some h ∧ h.eventDigest = d ∧ h.phase = p := by
    simp only [Snapshot.phases, Snapshot.handles, List.mem_map, List.mem_filter,
      List.mem_filterMap, mem_entries, decide_eq_true_eq]
    constructor
    · rintro ⟨h, ⟨⟨e, ⟨m, hm⟩, he⟩, hd⟩, hp⟩
      exact ⟨m, e, h, hm, he, hd, hp⟩
    · rintro ⟨m, e, h, hm, he, hd, hp⟩
      exact ⟨h, ⟨⟨e, ⟨m, hm⟩, he⟩, hd⟩, hp⟩
  constructor
  · rintro ⟨p, hp, hterm⟩
    obtain ⟨m, e, h, hm, he, hd, rfl⟩ := (hmem p).mp (List.argmax_mem hp)
    exact ⟨m, e, hm, StoreEntry.terminal_iff.mpr ⟨h, he, hd, hterm⟩⟩
  · rintro ⟨m, e, hm, hterm⟩
    obtain ⟨h, he, hd, hp⟩ := StoreEntry.terminal_iff.mp hterm
    have hin : h.phase ∈ s.phases d := (hmem _).mpr ⟨m, e, h, hm, he, hd, rfl⟩
    cases hmax : s.mergedPhase d with
    | none =>
      rw [Snapshot.mergedPhase, List.argmax_eq_none] at hmax
      rw [hmax] at hin
      cases hin
    | some p =>
      refine ⟨p, rfl, ?_⟩
      have hle : h.phase.mergeKey ≤ p.mergeKey := List.le_of_mem_argmax hin hmax
      revert hle hp
      cases h.phase <;> cases p <;> decide

theorem mergedPhase_eq_none_iff {s : Snapshot} {d : Digest} :
    s.mergedPhase d = none ↔ ∀ m e, s.member m = some e → e.holds d = false := by
  rw [Snapshot.mergedPhase, List.argmax_eq_none, Snapshot.phases, List.map_eq_nil_iff,
    List.filter_eq_nil_iff]
  simp only [Snapshot.handles, List.mem_filterMap, mem_entries, decide_eq_true_eq]
  constructor
  · intro h m e hm
    cases hh : e.holds d with
    | false => rfl
    | true =>
      obtain ⟨x, hx, hd⟩ := StoreEntry.holds_iff.mp hh
      exact absurd hd (h x ⟨e, ⟨m, hm⟩, hx⟩)
  · rintro h x ⟨e, ⟨m, hm⟩, hx⟩ hd
    have hh := h m e hm
    rw [StoreEntry.holds_iff.mpr ⟨x, hx, hd⟩] at hh
    cases hh

/-- No member holds `d`, or one holds it at a terminal phase. -/
def Settled (d : Digest) (s : Stores) : Prop :=
  (s.platform.entry.holds d = false ∧ s.sdkLocal.entry.holds d = false) ∨
    s.platform.entry.terminal d = true ∨ s.sdkLocal.entry.terminal d = true

theorem view_member {s : Stores} {m : CredentialStore} {e : StoreEntry} :
    s.view.member m = some e ↔
      (m = .platformAccount ∧ e = s.platform.entry) ∨
        (m = .sdkLocal ∧ e = s.sdkLocal.entry) := by
  cases m <;> simp [Snapshot.member, Stores.view, BlobRead.entry?, eq_comm]

theorem view_terminal_iff {d : Digest} {s : Stores} :
    (∃ p, s.view.mergedPhase d = some p ∧ p.isPending = false) ↔
      s.platform.entry.terminal d = true ∨ s.sdkLocal.entry.terminal d = true := by
  rw [mergedPhase_terminal_iff]
  constructor
  · rintro ⟨m, e, hm, ht⟩
    obtain ⟨-, rfl⟩ | ⟨-, rfl⟩ := view_member.mp hm
    · exact .inl ht
    · exact .inr ht
  · rintro (ht | ht)
    · exact ⟨_, _, view_member.mpr (.inl ⟨rfl, rfl⟩), ht⟩
    · exact ⟨_, _, view_member.mpr (.inr ⟨rfl, rfl⟩), ht⟩

/-- A settled digest is not pending at its merged phase. -/
theorem settled_iff {d : Digest} {s : Stores} :
    Settled d s ↔ ∀ p, s.view.mergedPhase d = some p → p.isPending = false := by
  constructor
  · rintro (⟨hp, hl⟩ | ht) p hmerged
    · have hnone : s.view.mergedPhase d = none := by
        rw [mergedPhase_eq_none_iff]
        intro m e hm
        obtain ⟨-, rfl⟩ | ⟨-, rfl⟩ := view_member.mp hm
        · exact hp
        · exact hl
      rw [hnone] at hmerged
      cases hmerged
    · obtain ⟨q, hq, hqt⟩ := view_terminal_iff.mpr ht
      rw [hmerged] at hq
      cases hq
      exact hqt
  · intro h
    cases hmerged : s.view.mergedPhase d with
    | none =>
      rw [mergedPhase_eq_none_iff] at hmerged
      exact .inl ⟨hmerged _ _ (view_member.mpr (.inl ⟨rfl, rfl⟩)),
        hmerged _ _ (view_member.mpr (.inr ⟨rfl, rfl⟩))⟩
    | some p => exact .inr (view_terminal_iff.mp ⟨p, hmerged, h p hmerged⟩)

theorem Settled.not_live {d : Digest} {s : Stores} (h : Settled d s) :
    s.view.isLive d = false := by
  unfold Snapshot.isLive
  cases hmerged : s.view.mergedPhase d with
  | none => rfl
  | some p => simp [settled_iff.mp h p hmerged]

/-- What a member holds after a planned write the store took or not. -/
def put (stored : Bool) (m : Merge) (old : StoreEntry) : StoreEntry :=
  m.elim old (fun e => if stored then e else old)

/-- Whether a checked write is reported as made. -/
def WriteAnswer.ok (answer : WriteAnswer) (held entry : StoreEntry) : Bool :=
  (writeEntryChecked answer held entry).1.isNone

theorem WriteAnswer.ok_iff {answer : WriteAnswer} {held entry : StoreEntry} (hne : held ≠ entry) :
    answer.ok held entry = true ↔
      answer.failure = none ∧ answer.readBack = none ∧ answer.stored = true := by
  unfold WriteAnswer.ok writeEntryChecked
  cases answer.failure <;> cases answer.readBack <;> cases answer.stored <;> simp [hne]

section Plain
variable {set : StoreSet} (hset : set.Plain) (a : Answers)
include hset

theorem writePlatform_plain (m : Merge) (s : Stores) :
    set.writePlatform a s.view m s =
      (m.elim .unchanged (fun e =>
        memberWrite (writeEntryChecked a.writePlatform s.platform.entry e.withoutSkip).1),
      { s with platform.entry :=
          (put a.writePlatform.stored (m.map StoreEntry.withoutSkip) s.platform.entry) }) := by
  unfold StoreSet.writePlatform
  rw [hset.platform]
  cases m with
  | none => rfl
  | some e =>
    simp only [Stores.view, Option.elim, Option.map_some, put, ← writeEntryChecked_snd]

theorem writeBlob_plain (snapshot : Snapshot) (m : Merge) (s : Stores) :
    set.writeBlob a snapshot m s = (.noStore, s) := by
  unfold StoreSet.writeBlob
  rw [hset.blob]

omit hset in
theorem writeLocal_entry (m : Merge) (s : Stores) :
    (StoreSet.writeLocal a m s).2.sdkLocal.entry = put a.writeLocal.stored m s.sdkLocal.entry := by
  cases m with
  | none => rfl
  | some e => simp only [StoreSet.writeLocal, writeEntryChecked_snd, put, Option.elim]

omit hset in
theorem finishReport_local (snapshot : Snapshot) (p : MemberWrite) (b : LargeBlobWrite)
    (rest : Merge × Option LargeBlobMembership) (s : Stores) :
    (set.finishReport a snapshot p b rest s).2.sdkLocal.entry =
      put a.writeLocal.stored rest.1 s.sdkLocal.entry := by
  rw [← writeLocal_entry]
  unfold StoreSet.finishReport
  split
  next outcome s₁ heq =>
  have hm := writeMembership_entry set a snapshot rest.2 s₁ .sdkLocal
  rw [heq]
  cases outcome.failure with
  | some cause => rfl
  | none => exact hm

/-- `compose`, `hold` and `advance` write the platform-account member first and
go on to the local store only where that write is reported as made. -/
theorem executeReport_plain (planned : Planned) (policy : Policy) (s : Stores) :
    let s' := (set.executeReport a s.view planned policy s).2
    s'.platform.entry =
        put a.writePlatform.stored (planned.platform.map StoreEntry.withoutSkip)
          s.platform.entry ∧
      s'.sdkLocal.entry =
        if planned.platform.elim true
            (fun e => a.writePlatform.ok s.platform.entry e.withoutSkip) then
          put a.writeLocal.stored planned.sdkLocal s.sdkLocal.entry
        else s.sdkLocal.entry := by
  have hfin (p : MemberWrite) (s₁ : Stores) :
      (set.finishReport a s.view p .noStore
        (planned.sdkLocal, s.view.record.map StoreSetRecord.largeBlob) s₁).2.platform.entry =
        s₁.platform.entry :=
    (finishReport_writesAt set a s.view p .noStore _ s₁).frame .platformAccount (by decide)
  have hafter : StoreSet.afterBlob s.view planned.sdkLocal policy .noStore =
      .ok (planned.sdkLocal, s.view.record.map StoreSetRecord.largeBlob) := rfl
  simp only [StoreSet.executeReport, writePlatform_plain hset, writeBlob_plain hset, hafter]
  cases hplan : planned.platform with
  | none => exact ⟨hfin _ _, finishReport_local a _ _ _ _ _⟩
  | some e =>
    dsimp only [Option.elim, Option.map_some]
    cases hw : (writeEntryChecked a.writePlatform s.platform.entry e.withoutSkip).1 with
    | none =>
      have hok : a.writePlatform.ok s.platform.entry e.withoutSkip = true := by
        rw [WriteAnswer.ok, hw]
        rfl
      exact ⟨hfin _ _, (finishReport_local a _ _ _ _ _).trans (if_pos hok).symm⟩
    | some cause =>
      have hok : ¬ a.writePlatform.ok s.platform.entry e.withoutSkip = true := by
        rw [WriteAnswer.ok, hw]
        exact Bool.false_ne_true
      exact ⟨rfl, (if_neg hok).symm⟩

/-- `complete` and `remove` try both members. -/
theorem executeRemoval_plain (planned : Planned) (s : Stores)
    (hp : planned.platformRefused = false) (hl : planned.localRefused = false) :
    let s' := (set.executeRemoval a s.view planned s).2
    s'.platform.entry =
        put a.writePlatform.stored (planned.platform.map StoreEntry.withoutSkip)
          s.platform.entry ∧
      s'.sdkLocal.entry = put a.writeLocal.stored planned.sdkLocal s.sdkLocal.entry := by
  have hview : s.view.platform.isNone = false := rfl
  have hblob : s.view.blob = .noHandle := rfl
  have hentry (membership : Option LargeBlobMembership) (s₁ : Stores) (m : CredentialStore) :=
    writeMembership_entry set a s.view membership s₁ m
  simp only [StoreSet.executeRemoval, StoreSet.removePlatform, StoreSet.removeBlob,
    StoreSet.removeLocal, hp, hl, hview, hblob, Bool.false_eq_true, if_false, if_true,
    writePlatform_plain hset]
  refine ⟨(hentry _ _ .platformAccount).trans ?_, (hentry _ _ .sdkLocal).trans ?_⟩
  · exact (writeLocal_writesAt a planned.sdkLocal _).frame .platformAccount (by decide)
  · exact writeLocal_entry a planned.sdkLocal _

end Plain

namespace Call

/-- The call takes `d`'s handle out of every member it writes. -/
def takesOut (d : Digest) : Call → Bool
  | compose _ x _ => x ≠ d
  | hold token _ => token.eventDigest ≠ d
  | advance _ _ _ => false
  | complete _ x | remove x _ => x = d

/-- The call stops where the platform-account write is not reported as made. -/
def stops : Call → Bool
  | compose _ _ _ | hold _ _ | advance _ _ _ => true
  | complete _ _ | remove _ _ => false

/-- The call composes or holds `d`. -/
def entersDigest (d : Digest) : Call → Bool
  | compose _ x _ => x = d
  | hold token _ => token.eventDigest = d
  | advance _ _ _ | complete _ _ | remove _ _ => false

end Call

/-- The call takes the one terminal copy of `d` while its write to the member
that holds `d` at a pending phase is not taken. -/
def strands (d : Digest) (s : Stores) (a : Answers) (c : Call) : Bool :=
  c.takesOut d &&
    ((s.platform.entry.terminal d && s.sdkLocal.entry.lags d && a.writePlatform.stored &&
      !(a.writeLocal.stored &&
        (!c.stops || (a.writePlatform.failure.isNone && a.writePlatform.readBack.isNone)))) ||
    (s.platform.entry.lags d && s.sdkLocal.entry.terminal d && !c.stops &&
      !a.writePlatform.stored && a.writeLocal.stored))

theorem merge_takesOut {set : StoreSet} {snapshot : Snapshot} {c : Call} {d : Digest}
    (hout : c.takesOut d = true) {store : CredentialStore} {entry : StoreEntry} {m : Merge}
    (hm : merge (c.change set) store entry snapshot = .ok m) (hd : entry.holds d = true) :
    ∃ e, m = some e ∧ e.holds d = false := by
  simp only [merge, bind_ok_iff, pure_ok_iff] at hm
  obtain ⟨w, hw, rfl⟩ := hm
  -- Whatever the call writes does not hold the digest, so it is not what was there.
  have hsome (e : StoreEntry) (hne : e.holds d = false) (hwe : w = some e) :
      ∃ e, w.filter (fun w => w ≠ entry) = some e ∧ e.holds d = false := by
    refine ⟨e, ?_, hne⟩
    have hdiff : e ≠ entry := by
      intro heq
      rw [heq, hd] at hne
      cases hne
    simp [hwe, hdiff]
  obtain ⟨held, hheld, hdig⟩ := StoreEntry.holds_iff.mp hd
  cases c with
  | compose kind x basis =>
    have hx : x ≠ d := by simpa [Call.takesOut] using hout
    cases hw
    exact hsome _ (by simpa [StoreEntry.holds] using hx) rfl
  | hold token basis =>
    have hx : token.eventDigest ≠ d := by simpa [Call.takesOut] using hout
    simp only [Call.change, mergeWritten, hheld, hdig, Ne.symm hx, if_false] at hw
    split_ifs at hw
    cases hw
    exact hsome _ (by simpa [StoreEntry.holds] using hx) rfl
  | advance x target basis => cases hout
  | complete sequence x =>
    have hx : x = d := by simpa [Call.takesOut] using hout
    subst hx
    simp only [Call.change, mergeWritten, mergeComplete] at hw
    split_ifs at hw
    cases hw
    refine hsome _ ?_ rfl
    simp [StoreEntry.holds, completed, hheld, hdig]
  | remove x basis =>
    have hx : x = d := by simpa [Call.takesOut] using hout
    subst hx
    simp only [Call.change, mergeWritten, hd, if_true, Except.ok.injEq] at hw
    exact hsome _ rfl hw.symm

/-- A member loses `d` only to a call that takes it out. -/
theorem takesOut_of_drop {set : StoreSet} {snapshot : Snapshot} {c : Call} {d : Digest}
    {store : CredentialStore} (hstore : store ≠ .largeBlob) {entry e : StoreEntry}
    (hw : Writes snapshot entry e (c.change set) store) (hd : entry.holds d = true)
    (hne : e.holds d = false) : c.takesOut d = true := by
  obtain ⟨held, hheld, hdig⟩ := StoreEntry.holds_iff.mp hd
  cases c with
  | compose kind x basis =>
    change e = _ at hw
    subst hw
    simpa [Call.takesOut, StoreEntry.holds] using hne
  | hold token basis =>
    obtain ⟨rfl, -⟩ := hw
    simpa [Call.takesOut, StoreEntry.holds] using hne
  | advance x target basis =>
    obtain ⟨held', hheld', -, -, he, -⟩ | ⟨hs, -⟩ := hw
    · rw [hheld] at hheld'
      cases hheld'
      have : e.holds d = true := StoreEntry.holds_iff.mpr ⟨_, he, hdig⟩
      rw [this] at hne
      cases hne
    · exact absurd hs hstore
  | complete sequence x =>
    obtain ⟨rfl, -⟩ := hw
    by_contra hx
    have hxd : entry.holds x = false := by
      have hne' : ¬ x = d := by simpa [Call.takesOut] using hx
      simpa [StoreEntry.holds, hheld, hdig] using Ne.symm hne'
    rw [StoreEntry.holds_iff.mpr ⟨held, by simp [completed, hheld, hxd], hdig⟩] at hne
    cases hne
  | remove x basis =>
    obtain ⟨hx, -⟩ := hw
    obtain ⟨held', hheld', hx'⟩ := StoreEntry.holds_iff.mp hx
    rw [hheld] at hheld'
    cases hheld'
    simp [Call.takesOut, ← hx', hdig]

/-- Only `compose` and `hold` of `d` bring it to a member that lacks it. -/
theorem not_holds_of_writes {set : StoreSet} {snapshot : Snapshot} {c : Call} {d : Digest}
    {store : CredentialStore} (hstore : store ≠ .largeBlob) (hnew : c.entersDigest d = false)
    {entry e : StoreEntry} (hw : Writes snapshot entry e (c.change set) store)
    (hd : entry.holds d = false) : e.holds d = false := by
  cases c with
  | compose kind x basis =>
    change e = _ at hw
    subst hw
    simpa [Call.entersDigest, StoreEntry.holds] using hnew
  | hold token basis =>
    obtain ⟨rfl, -⟩ := hw
    simpa [Call.entersDigest, StoreEntry.holds] using hnew
  | advance x target basis =>
    obtain ⟨held, hheld, -, -, he, -⟩ | ⟨hs, -⟩ := hw
    · simpa [StoreEntry.holds, hheld, he, RecoveryHandle.withPhase] using hd
    · exact absurd hs hstore
  | complete sequence x =>
    obtain ⟨rfl, -⟩ := hw
    cases hc : (completed entry _).holds d with
    | false => rfl
    | true =>
      obtain ⟨h, hh, hdig⟩ := StoreEntry.holds_iff.mp hc
      rw [completed, Option.filter_eq_some_iff] at hh
      rw [StoreEntry.holds_iff.mpr ⟨h, hh.1, hdig⟩] at hd
      cases hd
  | remove x basis =>
    obtain ⟨-, rfl⟩ := hw
    rfl

/-- An admitted removal of a digest at a terminal merged phase refuses no member. -/
theorem not_refused {set : StoreSet} {a : Answers} {snapshot : Snapshot} {s : Stores}
    {d : Digest} {basis : RemovalBasis} {p : RecoveryPhase}
    (had : set.removeAllowed a d basis (snapshot.mergedPhase d) s = .ok ())
    (hp : snapshot.mergedPhase d = some p) (hterm : p.isPending = false) (entry : StoreEntry) :
    refused (.remove d basis) snapshot entry = false := by
  have hrank : p.rank = 4 := RecoveryPhase.isPending_eq_false.mp hterm
  rw [hp] at had
  have hrem (own : RecoveryPhase) : removable basis own (some p) = true := by
    have hown := own.rank_le_four
    cases basis with
    | abortAtComposed =>
      simp only [StoreSet.removeAllowed, hrank] at had
      cases had
    | terminal =>
      simp only [removable, Option.elim, hrank, decide_eq_true_eq]
      split_ifs <;> omega
    | adopted => rfl
    | destroyed => rfl
  simp only [refused, hp]
  cases entry.handle with
  | none => rfl
  | some h => simp [hrem]

theorem put_some (stored : Bool) (e old : StoreEntry) :
    put stored (some e) old = if stored then e else old := rfl

/-- What a member holds of `d` after a call that does not compose or hold it. -/
structure Kept (d : Digest) (c : Call) (old new : StoreEntry) : Prop where
  absent : old.holds d = false → new.holds d = false
  terminal : old.terminal d = true → new.holds d = true → new.terminal d = true
  dropped : old.holds d = true → new.holds d = false → c.takesOut d = true

theorem Kept.same {d : Digest} {c : Call} {old new : StoreEntry} (h : new.Same old) :
    Kept d c old new := by
  have hholds : new.holds d = old.holds d := by rw [StoreEntry.holds, h.1, StoreEntry.holds]
  have hterm : new.terminal d = old.terminal d := by
    rw [StoreEntry.terminal, h.1, StoreEntry.terminal]
  refine ⟨?_, ?_, ?_⟩
  · intro ho
    rw [hholds]
    exact ho
  · intro ho _
    rw [hterm]
    exact ho
  · intro ho hn
    rw [hholds, ho] at hn
    cases hn

theorem terminal_of_rank {d : Digest} {old new : StoreEntry}
    (hrank : ∀ h h', old.handle = some h → new.handle = some h' →
      h'.eventDigest = h.eventDigest → h.phase.rank ≤ h'.phase.rank)
    (ho : old.terminal d = true) (hn : new.holds d = true) : new.terminal d = true := by
  obtain ⟨h, hh, hd, hp⟩ := StoreEntry.terminal_iff.mp ho
  obtain ⟨h', hh', hd'⟩ := StoreEntry.holds_iff.mp hn
  have hle := hrank h h' hh hh' (hd'.trans hd.symm)
  have hfour := h'.phase.rank_le_four
  rw [RecoveryPhase.isPending_eq_false] at hp
  refine StoreEntry.terminal_iff.mpr ⟨h', hh', hd', ?_⟩
  rw [RecoveryPhase.isPending_eq_false]
  omega

theorem call_kept {set : StoreSet} {a : Answers} {s : Stores} {c : Call} {d : Digest}
    (hnew : c.entersDigest d = false ∨ ∃ e, (set.call a s c).1 = .error e)
    {m : CredentialStore} (hm : m ≠ .largeBlob) :
    Kept d c (s.entry m) ((set.call a s c).2.entry m) := by
  obtain ⟨e, he⟩ | ⟨snapshot, planned, hs, had, hpl, hcall⟩ := call_cases set a s c
  · rw [he]
    exact .same ⟨rfl, rfl⟩
  · have hnew' : c.entersDigest d = false := by
      obtain h | ⟨e, he⟩ := hnew
      · exact h
      · rw [hcall] at he
        cases he
    have hr := snapshot_reads hs
    rw [hcall]
    obtain h | ⟨e, he, h⟩ := execute_executed set a hr planned c m
    · exact .same h
    · obtain ⟨entry, hentry, hw⟩ := plan_writes hpl he
      rw [← hr.member hentry]
      have hholds : ((c.execute set a snapshot planned s).2.entry m).holds d = e.holds d := by
        rw [StoreEntry.holds, h.1, StoreEntry.holds]
      refine ⟨?_, ?_, ?_⟩
      · intro ho
        rw [hholds]
        exact not_holds_of_writes hm hnew' hw ho
      · intro ho hn
        exact terminal_of_rank ((progress_of_writes had hentry hw).trans_same h).rank ho hn
      · intro ho hn
        rw [hholds] at hn
        exact takesOut_of_drop hm hw ho hn

/-- What an accepted call that takes `d` out does to the two members, where `d` is
terminal: the writes planned for the members that hold `d` no longer hold it. -/
structure TakenOut (set : StoreSet) (a : Answers) (s : Stores) (c : Call) (d : Digest)
    (platform sdkLocal : Merge) : Prop where
  platform_eq : (set.call a s c).2.platform.entry =
    put a.writePlatform.stored (platform.map StoreEntry.withoutSkip) s.platform.entry
  local_eq : (set.call a s c).2.sdkLocal.entry =
    if !c.stops || platform.elim true
        (fun e => a.writePlatform.ok s.platform.entry e.withoutSkip) then
      put a.writeLocal.stored sdkLocal s.sdkLocal.entry
    else s.sdkLocal.entry
  platform_out : s.platform.entry.holds d = true →
    ∃ e, platform = some e ∧ e.holds d = false
  local_out : s.sdkLocal.entry.holds d = true → ∃ e, sdkLocal = some e ∧ e.holds d = false

theorem plan_refused {snapshot : Snapshot} {change : Change} {planned : Planned}
    (h : plan snapshot change = .ok planned)
    (hnone : ∀ entry, refused change snapshot entry = false) :
    planned.platformRefused = false ∧ planned.localRefused = false := by
  simp only [plan, bind_ok_iff, pure_ok_iff] at h
  obtain ⟨platform, -, blob, -, sdkLocal, -, rfl⟩ := h
  refine ⟨?_, hnone _⟩
  cases snapshot.platform with
  | none => rfl
  | some e => exact hnone e

/-- The members after the writes of a planned call that takes `d` out. -/
theorem execute_plain {set : StoreSet} (hset : set.Plain) {a : Answers} {s : Stores} {c : Call}
    {d : Digest} (hout : c.takesOut d = true) {p : RecoveryPhase}
    (hp : s.view.mergedPhase d = some p) (hterm : p.isPending = false) {planned : Planned}
    (had : c.Admitted set a s.view s) (hpl : plan s.view (c.change set) = .ok planned) :
    (c.execute set a s.view planned s).2.platform.entry =
        put a.writePlatform.stored (planned.platform.map StoreEntry.withoutSkip)
          s.platform.entry ∧
      (c.execute set a s.view planned s).2.sdkLocal.entry =
        if !c.stops || planned.platform.elim true
            (fun e => a.writePlatform.ok s.platform.entry e.withoutSkip) then
          put a.writeLocal.stored planned.sdkLocal s.sdkLocal.entry
        else s.sdkLocal.entry := by
  cases c with
  | compose kind x basis => exact executeReport_plain hset a planned _ s
  | hold token basis => exact executeReport_plain hset a planned _ s
  | advance x target basis => cases hout
  | complete sequence x =>
    obtain ⟨h1, h2⟩ := plan_refused hpl (fun _ => rfl)
    exact executeRemoval_plain hset a planned s h1 h2
  | remove x basis =>
    have hx : x = d := by simpa [Call.takesOut] using hout
    subst hx
    obtain ⟨h1, h2⟩ := plan_refused hpl (not_refused had hp hterm)
    exact executeRemoval_plain hset a planned s h1 h2

theorem call_takenOut {set : StoreSet} (hset : set.Plain) {a : Answers} {s : Stores} {c : Call}
    {d : Digest} (hout : c.takesOut d = true)
    (hterm : s.platform.entry.terminal d = true ∨ s.sdkLocal.entry.terminal d = true)
    {r : Report} (hok : (set.call a s c).1 = .ok r) :
    ∃ platform sdkLocal, TakenOut set a s c d platform sdkLocal := by
  obtain ⟨e, he⟩ | ⟨snapshot, planned, hs, had, hpl, hcall⟩ := call_cases set a s c
  · rw [he] at hok
    cases hok
  · obtain rfl := snapshot_eq_view hset hs
    obtain ⟨p, hp, hpt⟩ := view_terminal_iff.mpr hterm
    obtain ⟨hplatform, hlocal⟩ := execute_plain hset hout hp hpt had hpl
    refine ⟨planned.platform, planned.sdkLocal, ?_, ?_, ?_, ?_⟩
    · rw [hcall]
      exact hplatform
    · rw [hcall]
      exact hlocal
    · intro hd
      exact merge_takesOut hout (plan_ok hpl .platformAccount) hd
    · intro hd
      exact merge_takesOut hout (plan_ok hpl .sdkLocal) hd

theorem holds_withoutSkip (e : StoreEntry) (d : Digest) : e.withoutSkip.holds d = e.holds d := rfl

/-- The platform account's terminal copy goes only together with a lagging local
copy. -/
theorem local_follows {set : StoreSet} {a : Answers} {s : Stores} {c : Call} {d : Digest}
    {platform sdkLocal : Merge} (h : TakenOut set a s c d platform sdkLocal)
    (hp : s.platform.entry.terminal d = true) (hl : s.sdkLocal.entry.lags d = true)
    (hout : c.takesOut d = true) (hsafe : strands d s a c = false)
    (hgone : (set.call a s c).2.platform.entry.holds d = false) :
    (set.call a s c).2.sdkLocal.entry.holds d = false := by
  have hph := StoreEntry.holds_of_terminal hp
  obtain ⟨e, rfl, he⟩ := h.platform_out hph
  obtain ⟨e', rfl, he'⟩ := h.local_out (StoreEntry.lags_iff.mp hl).1
  have hstored : a.writePlatform.stored = true := by
    rw [h.platform_eq, Option.map_some, put_some] at hgone
    cases hst : a.writePlatform.stored with
    | true => rfl
    | false =>
      rw [hst, if_neg Bool.false_ne_true, hph] at hgone
      cases hgone
  have hne : s.platform.entry ≠ e.withoutSkip := by
    intro heq
    rw [heq, holds_withoutSkip, he] at hph
    cases hph
  have hboth : a.writeLocal.stored = true ∧ (c.stops = true →
      a.writePlatform.failure = none ∧ a.writePlatform.readBack = none) := by
    simp only [strands, hout, hp, hl, hstored, Bool.true_and, Bool.or_eq_false_iff,
      Bool.not_eq_false', Bool.and_eq_true, Bool.or_eq_true, Bool.not_eq_true',
      Option.isNone_iff_eq_none] at hsafe
    refine ⟨hsafe.1.1, ?_⟩
    intro hstops
    simpa [hstops] using hsafe.1.2
  have htried : (!c.stops || a.writePlatform.ok s.platform.entry e.withoutSkip) = true := by
    cases hstops : c.stops with
    | false => rfl
    | true =>
      obtain ⟨hf, hb⟩ := hboth.2 hstops
      exact (WriteAnswer.ok_iff hne).mpr ⟨hf, hb, hstored⟩
  rw [h.local_eq, Option.elim, if_pos htried, put_some, if_pos hboth.1]
  exact he'

/-- The local store's terminal copy goes only together with a lagging copy in the
platform account. -/
theorem platform_follows {set : StoreSet} {a : Answers} {s : Stores} {c : Call} {d : Digest}
    {platform sdkLocal : Merge} (h : TakenOut set a s c d platform sdkLocal)
    (hp : s.platform.entry.lags d = true) (hl : s.sdkLocal.entry.terminal d = true)
    (hout : c.takesOut d = true) (hsafe : strands d s a c = false)
    (hgone : (set.call a s c).2.sdkLocal.entry.holds d = false) :
    (set.call a s c).2.platform.entry.holds d = false := by
  have hph := (StoreEntry.lags_iff.mp hp).1
  have hlh := StoreEntry.holds_of_terminal hl
  obtain ⟨e, rfl, he⟩ := h.platform_out hph
  obtain ⟨e', rfl, he'⟩ := h.local_out hlh
  have hne : s.platform.entry ≠ e.withoutSkip := by
    intro heq
    rw [heq, holds_withoutSkip, he] at hph
    cases hph
  rw [h.platform_eq, Option.map_some, put_some]
  cases hst : a.writePlatform.stored with
  | true => exact he
  | false =>
    -- A platform-account write that was not taken stops the call, or the local
    -- write is not taken either.
    exfalso
    have hnok : a.writePlatform.ok s.platform.entry e.withoutSkip = false := by
      rw [← Bool.not_eq_true, WriteAnswer.ok_iff hne, hst]
      simp
    have hlocal : (set.call a s c).2.sdkLocal.entry = s.sdkLocal.entry := by
      rw [h.local_eq, Option.elim, hnok]
      cases hstops : c.stops with
      | true => rfl
      | false =>
        have hlst : a.writeLocal.stored = false := by
          simpa [strands, hout, hp, hl, hst, hstops] using hsafe
        rw [hlst]
        rfl
    rw [hlocal, hlh] at hgone
    cases hgone

/-- A settled digest stays settled over a call that neither writes it anew nor
strands it. -/
theorem settled_call {set : StoreSet} (hset : set.Plain) {a : Answers} {s : Stores} {c : Call}
    {d : Digest} (hs : Settled d s)
    (hnew : c.entersDigest d = false ∨ ∃ e, (set.call a s c).1 = .error e)
    (hsafe : strands d s a c = false) : Settled d (set.call a s c).2 := by
  have hp := call_kept hnew (m := .platformAccount) (by decide)
  have hl := call_kept hnew (m := .sdkLocal) (by decide)
  simp only [Stores.entry] at hp hl
  obtain ⟨hpn, hln⟩ | hterm := hs
  · exact .inl ⟨hp.absent hpn, hl.absent hln⟩
  cases hok : (set.call a s c).1 with
  | error e =>
    obtain ⟨e', he'⟩ | ⟨_, _, -, -, -, hcall⟩ := call_cases set a s c
    · rw [he']
      exact .inr hterm
    · rw [hcall] at hok
      cases hok
  | ok r =>
    have hboth (h : c.takesOut d = true) := call_takenOut hset h hterm hok
    cases hpd : (set.call a s c).2.platform.entry.holds d with
    | true =>
      by_cases hpt : s.platform.entry.terminal d = true
      · exact .inr (.inl (hp.terminal hpt hpd))
      -- The terminal copy is the local one; the platform account holds `d` and lags.
      have hlt := hterm.resolve_left hpt
      have hlag : s.platform.entry.lags d = true := by
        refine StoreEntry.lags_iff.mpr ⟨?_, by simpa using hpt⟩
        by_contra hno
        rw [hp.absent (by simpa using hno)] at hpd
        cases hpd
      cases hld : (set.call a s c).2.sdkLocal.entry.holds d with
      | true => exact .inr (.inr (hl.terminal hlt hld))
      | false =>
        have hout := hl.dropped (StoreEntry.holds_of_terminal hlt) hld
        obtain ⟨platform, sdkLocal, h⟩ := hboth hout
        rw [platform_follows h hlag hlt hout hsafe hld] at hpd
        cases hpd
    | false =>
      cases hld : (set.call a s c).2.sdkLocal.entry.holds d with
      | false => exact .inl ⟨hpd, hld⟩
      | true =>
        by_cases hlt : s.sdkLocal.entry.terminal d = true
        · exact .inr (.inr (hl.terminal hlt hld))
        have hpt := hterm.resolve_right hlt
        have hlag : s.sdkLocal.entry.lags d = true := by
          refine StoreEntry.lags_iff.mpr ⟨?_, by simpa using hlt⟩
          by_contra hno
          rw [hl.absent (by simpa using hno)] at hld
          cases hld
        have hout := hp.dropped (StoreEntry.holds_of_terminal hpt) hpd
        obtain ⟨platform, sdkLocal, h⟩ := hboth hout
        rw [local_follows h hpt hlag hout hsafe hpd] at hld
        cases hld

/-- No call of the run strands `d`. -/
def NeverStrands (set : StoreSet) (d : Digest) (s : Stores) (calls : List (Answers × Call)) :
    Prop :=
  ∀ k a c, calls[k]? = some (a, c) → strands d (set.run s (calls.take k)) a c = false

/-- No call of the run composes or holds `d` and is accepted. -/
def NeverEnters (set : StoreSet) (d : Digest) (s : Stores) (calls : List (Answers × Call)) :
    Prop :=
  ∀ k a c, calls[k]? = some (a, c) → c.entersDigest d = false ∨
    ∃ e, (set.call a (set.run s (calls.take k)) c).1 = .error e

theorem settled_run {set : StoreSet} (hset : set.Plain) {d : Digest}
    (calls : List (Answers × Call)) {s : Stores} (hs : Settled d s)
    (hsafe : NeverStrands set d s calls) (hnew : NeverEnters set d s calls) :
    Settled d (set.run s calls) := by
  induction calls generalizing s with
  | nil => exact hs
  | cons x calls ih =>
    have hstep : Settled d (set.call x.1 s x.2).2 :=
      settled_call hset hs (hnew 0 x.1 x.2 rfl) (hsafe 0 x.1 x.2 rfl)
    apply ih hstep
    · intro k a c hk
      exact hsafe (k+1) a c hk
    · intro k a c hk
      exact hnew (k+1) a c hk

/-- A terminal removal is accepted only of a settled digest. -/
theorem settled_of_removed {set : StoreSet} (hset : set.Plain) {a : Answers} {s : Stores}
    {d : Digest} {r : Report} (h : (set.call a s (.remove d .terminal)).1 = .ok r) :
    Settled d s := by
  obtain ⟨e, he⟩ | ⟨snapshot, planned, hs, had, -, -⟩ :=
    call_cases set a s (.remove d .terminal)
  · rw [he] at h
    cases h
  · obtain rfl := snapshot_eq_view hset hs
    rw [settled_iff]
    intro p hp
    change set.removeAllowed a d .terminal (s.view.mergedPhase d) s = .ok () at had
    rw [hp] at had
    simp only [StoreSet.removeAllowed, require_ok_iff, decide_eq_true_eq] at had
    exact RecoveryPhase.isPending_eq_false.mpr had

/-- A settled digest's terminal removal is accepted once the stores are read. -/
theorem removed_of_settled {set : StoreSet} (hset : set.Plain) {a : Answers} {s : Stores}
    {d : Digest} (hs : Settled d s) {snapshot : Snapshot}
    (hread : set.snapshot a s = .ok snapshot) :
    ∃ r, (set.call a s (.remove d .terminal)).1 = .ok r := by
  obtain rfl := snapshot_eq_view hset hread
  have hallowed : set.removeAllowed a d .terminal (s.view.mergedPhase d) s = .ok () := by
    cases hp : s.view.mergedPhase d with
    | none => rfl
    | some p =>
      have hrank := RecoveryPhase.isPending_eq_false.mp (settled_iff.mp hs p hp)
      simp [StoreSet.removeAllowed, hrank]
  have hplan : set.removePlan a d .terminal s =
      (plan s.view (.remove d .terminal)).map (fun planned => (s.view, planned)) := by
    unfold StoreSet.removePlan
    rw [hread]
    change (do
      set.removeAllowed a d .terminal (s.view.mergedPhase d) s
      let planned ← plan s.view (.remove d .terminal)
      return (s.view, planned)) = _
    rw [hallowed]
    rfl
  rw [call_eq_transact]
  change ∃ r, (transact (set.removePlan a d .terminal s) _ s).1 = .ok r
  rw [hplan]
  exact ⟨_, rfl⟩

/-- Where no call strands `d`: once its merged phase is terminal it is never live
again unless composed or held anew, and a terminal removal that was accepted is
accepted again. -/
theorem terminal_phase_lasts (set : StoreSet) (hset : set.Plain) (d : Digest) (s : Stores)
    (calls : List (Answers × Call)) (hsafe : NeverStrands set d s calls) :
    ((∃ p, s.view.mergedPhase d = some p ∧ p.isPending = false) →
      NeverEnters set d s calls → (set.run s calls).view.isLive d = false) ∧
    ∀ k a r, calls[k]? = some (a, .remove d .terminal) →
      (set.call a (set.run s (calls.take k)) (.remove d .terminal)).1 = .ok r →
      ∀ a' snapshot,
        set.snapshot a' (set.call a (set.run s (calls.take k)) (.remove d .terminal)).2 =
          .ok snapshot →
        ∃ r', (set.call a' (set.call a (set.run s (calls.take k)) (.remove d .terminal)).2
          (.remove d .terminal)).1 = .ok r' := by
  refine ⟨?_, ?_⟩
  · intro hterm hnew
    exact (settled_run hset calls (.inr (view_terminal_iff.mp hterm)) hsafe hnew).not_live
  · intro k a r hk hok a' snapshot hread
    have hbefore := settled_of_removed hset hok
    have hafter := settled_call hset hbefore (.inl rfl) (hsafe k a _ hk)
    exact removed_of_settled hset hafter hread

def sampleCredential : CredentialId := ⟨[1], by decide, by decide⟩

def sampleSet : StoreSet := ⟨.present, false, sampleCredential, 1⟩

def sampleStores : Stores :=
  ⟨⟨some ⟨sampleCredential, .notMember⟩, .empty, []⟩, .empty, ⟨.empty, []⟩⟩

/-- The local write fails and leaves the local store as it was. -/
def sampleLocalFails : Answers :=
  { Answers.reached with writeLocal := ⟨some "disk full", false, none⟩ }

/-- The discard reaches the platform account only. -/
def sampleDiscarded : Stores :=
  sampleSet.run sampleStores
    [(.reached, .compose .fixesCommitment 7 none),
      (sampleLocalFails, .advance 7 .discarded none)]

theorem terminal_phase_lasts_sample :
    NeverStrands sampleSet 7 sampleDiscarded [(.reached, .remove 7 .terminal)] ∧
      (∃ p, sampleDiscarded.view.mergedPhase 7 = some p ∧ p.isPending = false) ∧
      (sampleSet.run sampleDiscarded [(.reached, .remove 7 .terminal)]).view.isLive 7 = false := by
  have hsafe : NeverStrands sampleSet 7 sampleDiscarded [(.reached, .remove 7 .terminal)] := by
    intro k a c hk
    cases k with
    | zero =>
      cases hk
      decide +kernel
    | succ k => cases hk
  have hterm : ∃ p, sampleDiscarded.view.mergedPhase 7 = some p ∧ p.isPending = false :=
    ⟨.discarded, by decide +kernel, rfl⟩
  refine ⟨hsafe, hterm, ?_⟩
  refine (terminal_phase_lasts sampleSet ⟨rfl, rfl⟩ 7 sampleDiscarded _ hsafe).1 hterm ?_
  intro k a c hk
  cases k with
  | zero =>
    cases hk
    exact .inl rfl
  | succ k => cases hk

/-- The removal takes the discarded copy and fails at the local store, which
still holds the handle at `Composed`: it is live again, and the removal is
refused when tried again. -/
theorem terminal_removal_revives :
    sampleDiscarded.view.mergedPhase 7 = some .discarded ∧
      (sampleSet.call sampleLocalFails sampleDiscarded (.remove 7 .terminal)).1 =
        .ok (.removal ⟨[⟨.platformAccount, none⟩,
          ⟨.sdkLocal, some (.failed (.store "disk full"))⟩], .unchanged⟩) ∧
      (sampleSet.call sampleLocalFails sampleDiscarded (.remove 7 .terminal)).2.view.isLive 7 =
        true ∧
      (sampleSet.call .reached
        (sampleSet.call sampleLocalFails sampleDiscarded (.remove 7 .terminal)).2
        (.remove 7 .terminal)).1 = .error .phaseNotRemovable := by
  decide +kernel

end ScpCore.Recovery
