import ScpCore.RecoverySet

/-! What a call can do to a member. Every refusal comes before the first write,
and after it each member holds what it held or what the plan wrote there, so a
partial execution is a step like any other. -/

namespace ScpCore.Recovery
open ScpCore.Kel (Digest Identifier)

/-- The entry a member holds. -/
def Stores.entry (s : Stores) : CredentialStore → StoreEntry
  | .platformAccount => s.platform.entry
  | .largeBlob => s.blob
  | .sdkLocal => s.sdkLocal.entry

namespace Call

/-- The event the call is about. -/
def digest : Call → Digest
  | compose _ d _ | advance d _ _ | complete _ d | remove d _ => d
  | hold token _ => token.eventDigest

def change (set : StoreSet) : Call → Change
  | compose kind d basis => .compose ⟨kind, set.identifier, .composed, d⟩ basis
  | hold token basis =>
    .hold ⟨token.kind, set.identifier, .composed, token.eventDigest⟩ basis
  | advance d target basis => .advance d target basis
  | complete sequence d => .complete ⟨set.identifier, sequence, d⟩
  | remove d basis => .remove d basis

/-- The writes of a planned call. -/
def execute (set : StoreSet) (a : Answers) (snapshot : Snapshot) (planned : Planned)
    (s : Stores) : Call → Report × Stores
  | compose _ _ _ => Prod.map .write id (set.executeReport a snapshot planned .compose s)
  | hold _ _ => Prod.map .write id (set.executeReport a snapshot planned .hold s)
  | advance d target _ =>
    Prod.map .write id
      (set.executeReport a snapshot planned (.advance d (target = .signed)) s)
  | complete _ _ | remove _ _ =>
    Prod.map .removal id (set.executeRemoval a snapshot planned s)

/-- What the call checks about the stores it read before it plans. -/
def Admitted (set : StoreSet) (a : Answers) (snapshot : Snapshot) (s : Stores) : Call → Prop
  | compose _ d basis =>
    snapshot.basisHolds basis = true ∧ snapshot.anyLive = false ∧ snapshot.anyHolds d = false
  | hold _ basis => snapshot.basisHolds basis = true
  | advance d target _ => target.phase.isPending = true → snapshot.anyHolds d = true
  | complete _ _ => True
  | remove d basis => set.removeAllowed a d basis (snapshot.mergedPhase d) s = .ok ()

end Call

theorem transact_map {ρ : Type} (f : ρ → Report)
    (checked : Except RecoveryStoreError (Snapshot × Planned))
    (exec : Snapshot → Planned → Stores → ρ × Stores) (s : Stores) :
    Prod.map (Except.map f) id (transact checked exec s) =
      transact checked (fun snapshot planned s => Prod.map f id (exec snapshot planned s)) s := by
  cases checked with
  | error e => rfl
  | ok x => rfl

/-- The checks and the plan of a call. -/
def Call.checked (set : StoreSet) (a : Answers) (s : Stores) :
    Call → Except RecoveryStoreError (Snapshot × Planned)
  | compose kind d basis => set.composePlan a kind d basis s
  | hold token basis => set.holdPlan a token basis s
  | advance d target basis => set.advancePlan a d target basis s
  | complete sequence d => set.completePlan a sequence d s
  | remove d basis => set.removePlan a d basis s

theorem call_eq_transact (set : StoreSet) (a : Answers) (s : Stores) (c : Call) :
    set.call a s c = transact (c.checked set a s)
      (fun snapshot planned s => c.execute set a snapshot planned s) s := by
  cases c <;> simp only [StoreSet.call, StoreSet.compose, StoreSet.hold, StoreSet.advance,
    StoreSet.complete, StoreSet.remove, transact_map, Call.checked, Call.execute]

theorem checked_ok {set : StoreSet} {a : Answers} {s : Stores} {c : Call}
    {snapshot : Snapshot} {planned : Planned}
    (h : c.checked set a s = .ok (snapshot, planned)) :
    set.snapshot a s = .ok snapshot ∧ c.Admitted set a snapshot s ∧
      plan snapshot (c.change set) = .ok planned := by
  cases c with
  | compose kind d basis =>
    simp only [Call.checked, StoreSet.composePlan, bind_ok_iff, require_ok_iff, pure_ok_iff,
      Prod.mk.injEq, Bool.not_eq_true', Bool.or_eq_false_iff] at h
    obtain ⟨sn, hsn, -, hb, -, hl, pl, hpl, rfl, rfl⟩ := h
    exact ⟨hsn, ⟨hb, hl⟩, hpl⟩
  | hold token basis =>
    simp only [Call.checked, StoreSet.holdPlan, bind_ok_iff, require_ok_iff, pure_ok_iff,
      Prod.mk.injEq] at h
    obtain ⟨sn, hsn, -, hb, pl, hpl, rfl, rfl⟩ := h
    exact ⟨hsn, hb, hpl⟩
  | advance d target basis =>
    simp only [Call.checked, StoreSet.advancePlan, bind_ok_iff, require_ok_iff, pure_ok_iff,
      Prod.mk.injEq] at h
    obtain ⟨sn, hsn, -, hb, pl, hpl, rfl, rfl⟩ := h
    refine ⟨hsn, ?_, hpl⟩
    intro hp
    simpa [hp] using hb
  | complete sequence d =>
    simp only [Call.checked, StoreSet.completePlan, bind_ok_iff, pure_ok_iff,
      Prod.mk.injEq] at h
    obtain ⟨sn, hsn, pl, hpl, rfl, rfl⟩ := h
    exact ⟨hsn, trivial, hpl⟩
  | remove d basis =>
    simp only [Call.checked, StoreSet.removePlan, bind_ok_iff, pure_ok_iff,
      Prod.mk.injEq] at h
    obtain ⟨sn, hsn, u, hallow, pl, hpl, rfl, rfl⟩ := h
    exact ⟨hsn, hallow, hpl⟩

/-- A refused call leaves every store as it was; an accepted one executes what
it planned from its reads. -/
theorem call_cases (set : StoreSet) (a : Answers) (s : Stores) (c : Call) :
    (∃ e, set.call a s c = (.error e, s)) ∨
      ∃ snapshot planned, set.snapshot a s = .ok snapshot ∧ c.Admitted set a snapshot s ∧
        plan snapshot (c.change set) = .ok planned ∧
        set.call a s c = ((.ok (c.execute set a snapshot planned s).1),
          (c.execute set a snapshot planned s).2) := by
  rw [call_eq_transact]
  cases hc : c.checked set a s with
  | error e => exact .inl ⟨e, rfl⟩
  | ok x =>
    obtain ⟨hs, had, hpl⟩ := checked_ok hc
    exact .inr ⟨x.1, x.2, hs, had, hpl, rfl⟩

/-- The snapshot shows what the stores hold. -/
structure Reads (snapshot : Snapshot) (s : Stores) : Prop where
  platform : ∀ e, snapshot.platform = some e → e = s.platform.entry
  blob : ∀ e, snapshot.blob = .read e → e = s.blob
  sdkLocal : snapshot.sdkLocal = s.sdkLocal.entry

theorem checkedEntry_ok {store : CredentialStore} {answer : Option NotReachedCause}
    {stored e : StoreEntry} {identifier : Identifier} {source : EntrySource}
    (h : checkedEntry store (readEntry answer stored) identifier source = .ok e) :
    e = stored := by
  unfold readEntry at h
  cases answer with
  | some cause => cases h
  | none =>
    by_cases hs : stored = .empty
    · rw [if_pos hs] at h
      cases h
      exact hs.symm
    · rw [if_neg hs] at h
      simp only [checkedEntry] at h
      split_ifs at h
      cases h
      rfl

theorem snapshot_reads {set : StoreSet} {a : Answers} {s : Stores} {snapshot : Snapshot}
    (h : set.snapshot a s = .ok snapshot) : Reads snapshot s := by
  simp only [StoreSet.snapshot, bind_ok_iff, pure_ok_iff] at h
  obtain ⟨record, -, platform, hplatform, blob, hblob, sdkLocal, hlocal, rfl⟩ := h
  refine ⟨?_, ?_, checkedEntry_ok hlocal⟩
  · intro e he
    cases record with
    | none => cases hplatform; cases he
    | some r =>
      unfold StoreSet.snapshotPlatform at hplatform
      cases hc : checkedEntry .platformAccount (readEntry a.readPlatform s.platform.entry)
          set.identifier .synced with
      | error err => simp [hc, Except.map] at hplatform
      | ok x =>
        simp only [hc, Except.map, Except.ok.injEq] at hplatform
        subst hplatform
        cases he
        exact checkedEntry_ok hc
  · intro e he
    unfold StoreSet.snapshotBlob at hblob
    by_cases hset : set.largeBlob = true
    · rw [hset, Bool.not_true, if_neg Bool.false_ne_true] at hblob
      cases hc : checkedEntry .largeBlob (readEntry a.readBlob s.blob)
          set.identifier .synced with
      | ok x =>
        simp only [hc, Except.ok.injEq] at hblob
        subst hblob
        cases he
        exact checkedEntry_ok hc
      | error err =>
        -- A tolerated failure leaves the store unread.
        rw [hc] at hblob
        cases err <;> simp only [reduceCtorEq] at hblob
        split_ifs at hblob
        cases hblob
        cases he
    · rw [Bool.not_eq_true] at hset
      rw [hset, Bool.not_false, if_pos rfl] at hblob
      cases hblob
      cases he

/-- Equal up to the skip bit. -/
def StoreEntry.Same (e e' : StoreEntry) : Prop := e.handle = e'.handle ∧ e.marker = e'.marker

/-- After a write of `m` that may have failed, the member holds what it held or
what `m` says. -/
def Takes (old : StoreEntry) (m : Merge) (new : StoreEntry) : Prop :=
  new.Same old ∨ ∃ e, m = some e ∧ new.Same e

theorem Takes.refl (e : StoreEntry) (m : Merge) : Takes e m e := .inl ⟨rfl, rfl⟩

/-- Only the member `store` may have changed, and it took `m` or not. -/
structure WritesAt (store : CredentialStore) (m : Merge) (s s' : Stores) : Prop where
  takes : Takes (s.entry store) m (s'.entry store)
  frame : ∀ other, other ≠ store → s'.entry other = s.entry other

theorem WritesAt.refl (store : CredentialStore) (m : Merge) (s : Stores) :
    WritesAt store m s s := ⟨.refl _ _, fun _ _ => rfl⟩

theorem writeEntryChecked_snd (answer : WriteAnswer) (held entry : StoreEntry) :
    (writeEntryChecked answer held entry).2 = if answer.stored then entry else held := by
  unfold writeEntryChecked
  cases answer.failure <;> cases answer.readBack <;> rfl

theorem takes_ite (c : Bool) {old e e' : StoreEntry} (he : e'.Same e) :
    Takes old (some e) (if c then e' else old) := by
  cases c with
  | false => exact .refl _ _
  | true => exact .inr ⟨e, rfl, he⟩

section
variable (set : StoreSet) (a : Answers)

theorem writePlatform_writesAt (snapshot : Snapshot) (m : Merge) (s : Stores) :
    WritesAt .platformAccount m s (set.writePlatform a snapshot m s).2 := by
  unfold StoreSet.writePlatform
  split
  · refine ⟨?_, ?_⟩
    · simp only [Stores.entry, writeEntryChecked_snd]
      exact takes_ite _ ⟨rfl, rfl⟩
    · intro other ho
      cases other with
      | platformAccount => exact absurd rfl ho
      | largeBlob => rfl
      | sdkLocal => rfl
  · exact .refl _ _ s
  · exact .refl _ _ s

theorem writeBlob_writesAt (snapshot : Snapshot) (m : Merge) (s : Stores) :
    WritesAt .largeBlob m s (set.writeBlob a snapshot m s).2 := by
  unfold StoreSet.writeBlob
  split
  · refine ⟨takes_ite _ ⟨rfl, rfl⟩, ?_⟩
    intro other ho
    cases other with
    | platformAccount => rfl
    | largeBlob => exact absurd rfl ho
    | sdkLocal => rfl
  all_goals exact .refl _ _ s

theorem writeLocal_writesAt (m : Merge) (s : Stores) :
    WritesAt .sdkLocal m s (StoreSet.writeLocal a m s).2 := by
  unfold StoreSet.writeLocal
  split
  · exact .refl _ _ s
  · refine ⟨?_, ?_⟩
    · simp only [Stores.entry, writeEntryChecked_snd]
      exact takes_ite _ ⟨rfl, rfl⟩
    · intro other ho
      cases other with
      | platformAccount => rfl
      | largeBlob => rfl
      | sdkLocal => exact absurd rfl ho

theorem writeMembership_entry (snapshot : Snapshot) (membership : Option LargeBlobMembership)
    (s : Stores) (m : CredentialStore) :
    (set.writeMembership a snapshot membership s).2.entry m = s.entry m := by
  unfold StoreSet.writeMembership
  split
  · split_ifs with h1
    · rfl
    · split
      · rfl
      · rfl
      · split_ifs
        · rfl
        · rfl
        · cases m <;> rfl
  · rfl
  · rfl

end

def Planned.merge (p : Planned) : CredentialStore → Merge
  | .platformAccount => p.platform
  | .largeBlob => p.blob
  | .sdkLocal => p.sdkLocal

/-- Every member holds what it held or what was planned for it. -/
def Executed (planned : Planned) (s s' : Stores) : Prop :=
  ∀ m, Takes (s.entry m) (planned.merge m) (s'.entry m)

/-- Writes at the three members, in order. -/
theorem executed_of_writesAt {planned : Planned} {m : Merge} {s s₁ s₂ s₃ : Stores}
    (hp : WritesAt .platformAccount planned.platform s s₁)
    (hb : WritesAt .largeBlob planned.blob s₁ s₂) (hl : WritesAt .sdkLocal m s₂ s₃)
    (hm : Takes (s.entry .sdkLocal) m (s₃.entry .sdkLocal) →
      Takes (s.entry .sdkLocal) planned.sdkLocal (s₃.entry .sdkLocal)) :
    Executed planned s s₃ := by
  intro store
  cases store with
  | platformAccount =>
    rw [hl.frame _ (by decide), hb.frame _ (by decide)]
    exact hp.takes
  | largeBlob =>
    rw [hl.frame _ (by decide), ← hp.frame .largeBlob (by decide)]
    exact hb.takes
  | sdkLocal =>
    apply hm
    rw [← hp.frame .sdkLocal (by decide), ← hb.frame .sdkLocal (by decide)]
    exact hl.takes

theorem setSkip_takes {old new : StoreEntry} {m : Merge} (h : Takes old (setSkip m) new) :
    Takes old m new := by
  obtain h | ⟨e, he, h⟩ := h
  · exact .inl h
  · obtain ⟨e', rfl, rfl⟩ := Option.map_eq_some_iff.mp he
    refine .inr ⟨e', rfl, ?_⟩
    cases hh : e'.handle with
    | none => simpa [hh] using h
    | some x =>
      rw [hh] at h
      exact ⟨h.1.trans hh.symm, h.2⟩

theorem clearSkip_takes {snapshot : Snapshot} {new : StoreEntry} {m : Merge} {d : Digest}
    (h : Takes snapshot.sdkLocal (clearSkip snapshot m d) new) :
    Takes snapshot.sdkLocal m new := by
  obtain h | ⟨e, he, h⟩ := h
  · exact .inl h
  · cases m with
    | some entry =>
      refine .inr ⟨entry, rfl, ?_⟩
      simp only [clearSkip, Option.some.injEq] at he
      subst he
      split_ifs at h with hd
      · exact h
      · exact h
    | none =>
      simp only [clearSkip] at he
      split_ifs at he with hd
      cases he
      exact .inl h

/-- What follows the `largeBlob` write changes the local plan in its skip bit
only. -/
theorem afterBlob_takes {snapshot : Snapshot} {m : Merge} {policy : Policy}
    {outcome : LargeBlobWrite} {rest : Merge × Option LargeBlobMembership}
    (h : StoreSet.afterBlob snapshot m policy outcome = .ok rest) {new : StoreEntry}
    (hn : Takes snapshot.sdkLocal rest.1 new) : Takes snapshot.sdkLocal m new := by
  unfold StoreSet.afterBlob at h
  dsimp only at h
  split at h
  · split at h
    · split_ifs at h
      · cases h; exact hn
      · cases h; exact setSkip_takes hn
    · split_ifs at h
      · cases h; exact hn
      · cases h; exact hn
    · split_ifs at h
      cases h
      exact hn
  · split_ifs at h
    · cases h
      cases policy with
      | advance d toSigned => exact clearSkip_takes hn
      | compose => exact hn
      | hold => exact hn
    · cases h; exact hn

section
variable (set : StoreSet) (a : Answers)

theorem finishReport_writesAt (snapshot : Snapshot) (p : MemberWrite) (b : LargeBlobWrite)
    (rest : Merge × Option LargeBlobMembership) (s : Stores) :
    WritesAt .sdkLocal rest.1 s (set.finishReport a snapshot p b rest s).2 := by
  have hl := writeLocal_writesAt a rest.1 s
  unfold StoreSet.finishReport
  split
  next outcome s₁ heq =>
  rw [heq] at hl
  cases outcome.failure with
  | some cause => exact hl
  | none =>
    have hm := writeMembership_entry set a snapshot rest.2 s₁
    refine ⟨?_, ?_⟩
    · simp only [hm]
      exact hl.takes
    · intro other ho
      simp only [hm]
      exact hl.frame other ho

theorem executeReport_executed {snapshot : Snapshot} {s : Stores} (hr : Reads snapshot s)
    (planned : Planned) (policy : Policy) :
    Executed planned s (set.executeReport a snapshot planned policy s).2 := by
  have hp := writePlatform_writesAt set a snapshot planned.platform s
  have hlocal (new : StoreEntry) (m : Merge)
      (h : Takes snapshot.sdkLocal m new → Takes snapshot.sdkLocal planned.sdkLocal new) :
      Takes (s.entry .sdkLocal) m new → Takes (s.entry .sdkLocal) planned.sdkLocal new := by
    simpa only [hr.sdkLocal, Stores.entry] using h
  unfold StoreSet.executeReport
  split
  next platform s₁ heq =>
  rw [heq] at hp
  have hb := writeBlob_writesAt set a snapshot planned.blob s₁
  cases platform.failure with
  | some cause => exact executed_of_writesAt hp (.refl _ _ _) (.refl _ planned.sdkLocal _) id
  | none =>
    dsimp only
    split
    · exact executed_of_writesAt hp hb (.refl _ planned.sdkLocal _) id
    · next rest hrest =>
      exact executed_of_writesAt hp hb (finishReport_writesAt set a snapshot platform _ rest _)
        (hlocal _ _ (afterBlob_takes hrest))

theorem executeRemoval_executed {snapshot : Snapshot} {s : Stores} (planned : Planned) :
    Executed planned s (set.executeRemoval a snapshot planned s).2 := by
  have hp : WritesAt .platformAccount planned.platform s
      (set.removePlatform a snapshot planned s).2 := by
    unfold StoreSet.removePlatform
    split_ifs
    · exact .refl _ _ s
    · exact .refl _ _ s
    · exact writePlatform_writesAt set a snapshot planned.platform s
  have hb (s₁ : Stores) : WritesAt .largeBlob planned.blob s₁
      (set.removeBlob a snapshot planned s₁).2.2 := by
    unfold StoreSet.removeBlob
    split_ifs
    · exact .refl _ _ s₁
    · exact .refl _ _ s₁
    · exact writeBlob_writesAt set a snapshot planned.blob s₁
  have hl (s₂ : Stores) : WritesAt .sdkLocal planned.sdkLocal s₂
      (StoreSet.removeLocal a planned s₂).2 := by
    unfold StoreSet.removeLocal
    split_ifs
    · exact .refl _ _ s₂
    · exact writeLocal_writesAt a planned.sdkLocal s₂
  intro m
  simp only [StoreSet.executeRemoval, writeMembership_entry]
  exact executed_of_writesAt hp (hb _) (hl _) id m

theorem execute_executed {snapshot : Snapshot} {s : Stores} (hr : Reads snapshot s)
    (planned : Planned) (c : Call) :
    Executed planned s (c.execute set a snapshot planned s).2 := by
  cases c with
  | compose kind d basis => exact executeReport_executed set a hr planned _
  | hold token basis => exact executeReport_executed set a hr planned _
  | advance d target basis => exact executeReport_executed set a hr planned _
  | complete sequence d => exact executeRemoval_executed set a planned
  | remove d basis => exact executeRemoval_executed set a planned

end

/-- The entry the snapshot read from a member. -/
def Snapshot.member (s : Snapshot) : CredentialStore → Option StoreEntry
  | .platformAccount => s.platform
  | .largeBlob => s.blob.entry?
  | .sdkLocal => some s.sdkLocal

theorem mem_entries {s : Snapshot} {e : StoreEntry} :
    e ∈ s.entries ↔ ∃ m, s.member m = some e := by
  simp only [Snapshot.entries, List.mem_append, Option.mem_toList, List.mem_singleton]
  constructor
  · rintro ((h | h) | h)
    · exact ⟨.platformAccount, h⟩
    · exact ⟨.largeBlob, h⟩
    · exact ⟨.sdkLocal, congrArg some h.symm⟩
  · rintro ⟨m, h⟩
    cases m with
    | platformAccount => exact .inl (.inl h)
    | largeBlob => exact .inl (.inr h)
    | sdkLocal => exact .inr (Option.some.inj h).symm

theorem Reads.member {snapshot : Snapshot} {s : Stores} (hr : Reads snapshot s)
    {m : CredentialStore} {e : StoreEntry} (h : snapshot.member m = some e) : e = s.entry m := by
  cases m with
  | platformAccount => exact hr.platform e h
  | largeBlob =>
    apply hr.blob e
    simp only [Snapshot.member, BlobRead.entry?] at h
    split at h
    · next heq =>
      cases h
      exact heq
    · cases h
    · cases h
  | sdkLocal =>
    cases h
    exact hr.sdkLocal

theorem plan_ok {snapshot : Snapshot} {change : Change} {planned : Planned}
    (h : plan snapshot change = .ok planned) (m : CredentialStore) :
    mergeMember change m snapshot (snapshot.member m) = .ok (planned.merge m) := by
  simp only [plan, bind_ok_iff, pure_ok_iff] at h
  obtain ⟨platform, hp, blob, hb, sdkLocal, hl, rfl⟩ := h
  cases m with
  | platformAccount => exact hp
  | largeBlob => exact hb
  | sdkLocal => exact hl

/-- What a merge that writes can write, over the entry the member held. -/
def Writes (snapshot : Snapshot) (entry e : StoreEntry) : Change → CredentialStore → Prop
  | .compose handle basis, _ => e = .new (some handle) basis
  | .hold handle basis, _ =>
    e = .new (some handle) basis ∧ ∀ held, entry.handle = some held →
      held.eventDigest ≠ handle.eventDigest ∧ snapshot.isLive held.eventDigest = false
  | .advance d target _, store =>
    (∃ held, entry.handle = some held ∧ held.eventDigest = d ∧
      held.phase.rank < target.phase.rank ∧ e.handle = some (held.withPhase target.phase) ∧
      e.marker = entry.marker) ∨
    (store = .largeBlob ∧ (∀ held, entry.handle = some held →
      held.eventDigest ≠ d ∧ snapshot.isLive held.eventDigest = false) ∧
      (∃ h, e.handle = some h ∧ h.eventDigest = d) ∧ e.marker = entry.marker)
  | .complete marker, _ =>
    e = completed entry marker ∧
      ∀ m, entry.marker = some m → m.sequence.toNat ≤ marker.sequence.toNat
  | .remove d _, _ => entry.holds d = true ∧ e = .new none entry.marker

theorem mergedHandle_digest {s : Snapshot} {d : Digest} {h : RecoveryHandle}
    (hm : s.mergedHandle d = some h) : h.eventDigest = d := by
  simp only [Snapshot.mergedHandle, Option.bind_eq_some_iff, Option.map_eq_some_iff] at hm
  obtain ⟨phase, -, x, hx, rfl⟩ := hm
  simpa [RecoveryHandle.withPhase] using List.find?_some hx

theorem advanceAbsent_writes {store : CredentialStore} {entry e : StoreEntry}
    {snapshot : Snapshot} {d : Digest} {phase : RecoveryPhase}
    {basis : Option LastRevealMarker}
    (h : advanceAbsent store entry snapshot d phase basis = .ok (some e)) :
    store = .largeBlob ∧ (∃ h, e.handle = some h ∧ h.eventDigest = d) ∧
      e.marker = entry.marker := by
  unfold advanceAbsent at h
  split_ifs at h
  · cases h
  · cases store with
    | sdkLocal => cases h
    | platformAccount => cases h
    | largeBlob =>
      refine ⟨rfl, ?_⟩
      unfold fillSkipped at h
      dsimp only at h
      split_ifs at h
      · cases h
      · split at h
        · cases h
        · next x hx =>
          cases h
          have hd : x.eventDigest = d := mergedHandle_digest hx
          exact ⟨⟨x.withPhase phase, rfl, hd⟩, rfl⟩

theorem mergeWritten_writes {change : Change} {store : CredentialStore} {entry e : StoreEntry}
    {snapshot : Snapshot} (h : mergeWritten change store entry snapshot = .ok (some e)) :
    Writes snapshot entry e change store := by
  cases change with
  | compose handle basis =>
    cases h
    rfl
  | hold handle basis =>
    simp only [mergeWritten] at h
    cases hh : entry.handle with
    | none =>
      rw [hh] at h
      cases h
      refine ⟨rfl, ?_⟩
      intro held hheld
      rw [hh] at hheld
      cases hheld
    | some held =>
      rw [hh] at h
      dsimp only at h
      split_ifs at h with hd hlive
      · cases h
      · cases h
        refine ⟨rfl, ?_⟩
        intro held' hheld
        rw [hh] at hheld
        cases hheld
        exact ⟨hd, by simpa using hlive⟩
  | advance d target basis =>
    simp only [mergeWritten, mergeAdvance] at h
    cases hh : entry.handle with
    | none =>
      simp only [hh] at h
      obtain ⟨hs, hnew, hm⟩ := advanceAbsent_writes h
      refine .inr ⟨hs, ?_, hnew, hm⟩
      intro held hheld
      rw [hh] at hheld
      cases hheld
    | some held =>
      split at h
      · next held' heq =>
        rw [hh] at heq
        cases heq
        -- An older target is not written, a newer one is, and a handle of another event yields
        -- only when it is no longer live.
        split_ifs at h with hd hrank hlive
        · cases h
        · cases h
          exact .inl ⟨held, hh, hd, by omega, rfl, rfl⟩
        · obtain ⟨hs, hnew, hm⟩ := advanceAbsent_writes h
          refine .inr ⟨hs, ?_, hnew, hm⟩
          intro held' hheld
          rw [hh] at hheld
          cases hheld
          exact ⟨hd, by simpa using hlive⟩
      · next heq =>
        rw [hh] at heq
        cases heq
  | complete marker =>
    simp only [mergeWritten, mergeComplete] at h
    split_ifs at h with hmoved
    cases h
    refine ⟨rfl, ?_⟩
    intro m hm
    rw [hm] at hmoved
    by_cases heq : m = marker
    · rw [heq]
    · simpa [heq] using hmoved
  | remove d basis =>
    simp only [mergeWritten] at h
    split_ifs at h with hd
    · cases h
      exact ⟨hd, rfl⟩
    · cases h

/-- A planned write is over an entry the snapshot read, and writes what the
change writes there. -/
theorem plan_writes {snapshot : Snapshot} {change : Change} {planned : Planned}
    (h : plan snapshot change = .ok planned) {m : CredentialStore} {e : StoreEntry}
    (he : planned.merge m = some e) :
    ∃ entry, snapshot.member m = some entry ∧ Writes snapshot entry e change m := by
  have hm := plan_ok h m
  rw [he] at hm
  cases hs : snapshot.member m with
  | none =>
    rw [hs] at hm
    cases hm
  | some entry =>
    rw [hs] at hm
    simp only [mergeMember, merge, bind_ok_iff, pure_ok_iff, Option.filter_eq_some_iff] at hm
    obtain ⟨written, hw, rfl, -⟩ := hm
    exact ⟨entry, rfl, mergeWritten_writes hw⟩

theorem mem_maxMarkers {s : Snapshot} {x : LastRevealMarker} :
    x ∈ s.maxMarkers ↔
      x ∈ s.markers ∧ ∀ y ∈ s.markers, y.sequence.toNat ≤ x.sequence.toNat := by
  unfold Snapshot.maxMarkers
  cases htop : (s.markers.map (fun m => m.sequence.toNat)).max? with
  | none =>
    have hnil : s.markers = [] := by simpa using htop
    simp [hnil]
  | some top =>
    obtain ⟨hmem, hmax⟩ := List.max?_eq_some_iff.mp htop
    obtain ⟨y, hy, hyt⟩ := List.mem_map.mp hmem
    have hle : ∀ z ∈ s.markers, z.sequence.toNat ≤ top := by
      intro z hz
      exact hmax _ (List.mem_map.mpr ⟨z, hz, rfl⟩)
    simp only [Option.elim, List.mem_eraseDups, List.mem_filter, decide_eq_true_eq]
    constructor
    · intro h
      refine ⟨h.1, ?_⟩
      rw [h.2]
      exact hle
    · intro h
      exact ⟨h.1, le_antisymm (hle x h.1) (hyt ▸ h.2 y hy)⟩

/-- A marker of the highest sequence is the basis a transition was let in on. -/
theorem basisHolds_eq {s : Snapshot} {basis : Option LastRevealMarker}
    (h : s.basisHolds basis = true) {x : LastRevealMarker} (hx : x ∈ s.maxMarkers) :
    basis = some x := by
  cases basis with
  | none => simp [Snapshot.basisHolds, List.ne_nil_of_mem hx] at h
  | some b =>
    simp only [Snapshot.basisHolds, Option.elim, Bool.and_eq_true, List.all_eq_true,
      decide_eq_true_eq] at h
    rw [h.2 x hx]

theorem exists_maxMarker {s : Snapshot} {m : LastRevealMarker} (hm : m ∈ s.markers) :
    ∃ x ∈ s.maxMarkers, m.sequence.toNat ≤ x.sequence.toNat := by
  cases hx : s.markers.argmax (fun m => m.sequence.toNat) with
  | none =>
    rw [List.argmax_eq_none.mp hx] at hm
    cases hm
  | some x =>
    have hmax : ∀ y ∈ s.markers, y.sequence.toNat ≤ x.sequence.toNat := by
      intro y hy
      exact List.le_of_mem_argmax (f := fun m => m.sequence.toNat) hy hx
    exact ⟨x, mem_maxMarkers.mpr ⟨List.argmax_mem hx, hmax⟩, hmax m hm⟩

theorem basis_bounds {s : Snapshot} {basis : Option LastRevealMarker}
    (h : s.basisHolds basis = true) {m : LastRevealMarker} (hm : m ∈ s.markers) :
    ∃ b, basis = some b ∧ m.sequence.toNat ≤ b.sequence.toNat := by
  obtain ⟨x, hx, hle⟩ := exists_maxMarker hm
  exact ⟨x, basisHolds_eq h hx, hle⟩

theorem mem_markers {s : Snapshot} {m : CredentialStore} {e : StoreEntry}
    {x : LastRevealMarker} (he : s.member m = some e) (hx : e.marker = some x) :
    x ∈ s.markers := by
  exact List.mem_filterMap.mpr ⟨e, mem_entries.mpr ⟨m, he⟩, hx⟩

theorem not_holds_of_anyHolds {s : Snapshot} {m : CredentialStore} {e : StoreEntry}
    {d : Digest} (h : s.anyHolds d = false) (he : s.member m = some e) : e.holds d = false := by
  unfold Snapshot.anyHolds at h
  rw [List.any_eq_false] at h
  simpa using h e (mem_entries.mpr ⟨m, he⟩)

/-- What no call ever undoes in a member: the phase of the digest it goes on
holding, the sequence of its marker, and another ceremony's live handle. -/
structure Progress (live : Digest → Bool) (c : Call) (old new : StoreEntry) : Prop where
  rank : ∀ h h', old.handle = some h → new.handle = some h' →
    h'.eventDigest = h.eventDigest → h.phase.rank ≤ h'.phase.rank
  marker : ∀ x, old.marker = some x →
    ∃ y, new.marker = some y ∧ x.sequence.toNat ≤ y.sequence.toNat
  foreign : (∀ kind d basis, c ≠ .compose kind d basis) → ∀ h, old.handle = some h →
    h.eventDigest ≠ c.digest → live h.eventDigest = true → new.handle = some h

theorem Progress.same (live : Digest → Bool) (c : Call) {old new : StoreEntry}
    (h : new.Same old) : Progress live c old new := by
  refine ⟨?_, ?_, ?_⟩
  · intro x x' hx hx' _
    rw [h.1, hx] at hx'
    cases hx'
    exact le_rfl
  · intro x hx
    exact ⟨x, h.2.trans hx, le_rfl⟩
  · intro _ x hx _ _
    exact h.1.trans hx

theorem Progress.trans_same {live : Digest → Bool} {c : Call} {old e new : StoreEntry}
    (h : Progress live c old e) (hs : new.Same e) : Progress live c old new := by
  refine ⟨?_, ?_, ?_⟩
  · intro x x' hx hx'
    exact h.rank x x' hx (hs.1.symm.trans hx')
  · intro x hx
    rw [hs.2]
    exact h.marker x hx
  · intro hc x hx hd hl
    exact hs.1.trans (h.foreign hc x hx hd hl)

/-- A write of an admitted call is progress over the entry it replaces. -/
theorem progress_of_writes {set : StoreSet} {a : Answers} {snapshot : Snapshot} {s : Stores}
    {c : Call} (had : c.Admitted set a snapshot s) {m : CredentialStore} {entry e : StoreEntry}
    (hm : snapshot.member m = some entry) (hw : Writes snapshot entry e (c.change set) m) :
    Progress snapshot.isLive c entry e := by
  cases c with
  | compose kind d basis =>
    obtain ⟨hbasis, -, hholds⟩ := had
    change e = _ at hw
    subst hw
    refine ⟨?_, ?_, ?_⟩
    · intro h h' hh hh' hd
      cases hh'
      -- The composed digest is new to every store.
      have hnot := not_holds_of_anyHolds hholds hm
      rw [StoreEntry.holds_iff.mpr ⟨h, hh, hd.symm⟩] at hnot
      cases hnot
    · intro x hx
      obtain ⟨b, rfl, hle⟩ := basis_bounds hbasis (mem_markers hm hx)
      exact ⟨b, rfl, hle⟩
    · intro hc
      exact absurd rfl (hc kind d basis)
  | hold token basis =>
    obtain ⟨rfl, hdead⟩ := hw
    refine ⟨?_, ?_, ?_⟩
    · intro h h' hh hh' hd
      cases hh'
      exact absurd hd.symm (hdead h hh).1
    · intro x hx
      obtain ⟨b, rfl, hle⟩ := basis_bounds had (mem_markers hm hx)
      exact ⟨b, rfl, hle⟩
    · intro _ h hh _ hl
      rw [(hdead h hh).2] at hl
      cases hl
  | advance d target basis =>
    obtain ⟨held, hheld, hdig, hrank, he, hmark⟩ | ⟨-, hdead, hnew, hmark⟩ := hw
    · refine ⟨?_, ?_, ?_⟩
      · intro h h' hh hh' _
        rw [hheld] at hh
        rw [he] at hh'
        cases hh
        cases hh'
        exact hrank.le
      · intro x hx
        exact ⟨x, hmark.trans hx, le_rfl⟩
      · intro _ h hh hne _
        rw [hheld] at hh
        cases hh
        exact absurd hdig hne
    · refine ⟨?_, ?_, ?_⟩
      · intro h h' hh hh' hd
        obtain ⟨x, hx, hxd⟩ := hnew
        rw [hx] at hh'
        cases hh'
        exact absurd (hd.symm.trans hxd) (hdead h hh).1
      · intro x hx
        exact ⟨x, hmark.trans hx, le_rfl⟩
      · intro _ h hh _ hl
        rw [(hdead h hh).2] at hl
        cases hl
  | complete sequence d =>
    obtain ⟨rfl, hle⟩ := hw
    refine ⟨?_, ?_, ?_⟩
    · intro h h' hh hh' _
      simp only [completed, hh, Option.filter_eq_some_iff] at hh'
      cases hh'.1
      exact le_rfl
    · intro x hx
      exact ⟨_, rfl, hle x hx⟩
    · intro _ h hh hne _
      have hnot : entry.holds d = false := by
        simpa [StoreEntry.holds, hh, Call.digest] using hne
      simp [completed, hh, hnot]
  | remove d basis =>
    obtain ⟨hholds, rfl⟩ := hw
    obtain ⟨held, hheld, hdig⟩ := StoreEntry.holds_iff.mp hholds
    refine ⟨?_, ?_, ?_⟩
    · intro h h' _ hh'
      cases hh'
    · intro x hx
      exact ⟨x, hx, le_rfl⟩
    · intro _ h hh hne _
      rw [hheld] at hh
      cases hh
      exact absurd hdig hne

/-- After a call every member has made progress, whatever part of it failed. -/
theorem call_progress (set : StoreSet) (a : Answers) (s : Stores) (c : Call)
    (m : CredentialStore) :
    ∃ live : Digest → Bool,
      (∀ snapshot, set.snapshot a s = .ok snapshot → live = snapshot.isLive) ∧
        Progress live c (s.entry m) ((set.call a s c).2.entry m) := by
  obtain ⟨e, he⟩ | ⟨snapshot, planned, hs, had, hpl, hcall⟩ := call_cases set a s c
  · rw [he]
    cases hs : set.snapshot a s with
    | error e' =>
      refine ⟨fun _ => false, ?_, .same _ c ⟨rfl, rfl⟩⟩
      intro snapshot h
      cases h
    | ok snapshot =>
      refine ⟨snapshot.isLive, ?_, .same _ c ⟨rfl, rfl⟩⟩
      intro snapshot' h
      cases h
      rfl
  · refine ⟨snapshot.isLive, ?_, ?_⟩
    · intro snapshot' h
      rw [hs] at h
      cases h
      rfl
    · have hr := snapshot_reads hs
      rw [hcall]
      obtain h | ⟨e, he, h⟩ := execute_executed set a hr planned c m
      · exact .same _ c h
      · obtain ⟨entry, hentry, hw⟩ := plan_writes hpl he
        rw [← hr.member hentry]
        exact (progress_of_writes had hentry hw).trans_same h

/-- The stores after a run of calls, each with what the stores answered. -/
def StoreSet.run (set : StoreSet) (s : Stores) (calls : List (Answers × Call)) : Stores :=
  calls.foldl (fun s c => (set.call c.1 s c.2).2) s

@[simp] theorem run_nil (set : StoreSet) (s : Stores) : set.run s [] = s := rfl

@[simp] theorem run_cons (set : StoreSet) (s : Stores) (c : Answers × Call)
    (calls : List (Answers × Call)) :
    set.run s (c :: calls) = set.run (set.call c.1 s c.2).2 calls := rfl

theorem run_rank {set : StoreSet} {m : CredentialStore} {d : Digest}
    (calls : List (Answers × Call)) {s : Stores}
    (hheld : ∀ k ≤ calls.length, ((set.run s (calls.take k)).entry m).holds d = true)
    {h h' : RecoveryHandle} (hh : (s.entry m).handle = some h)
    (hh' : ((set.run s calls).entry m).handle = some h') : h.phase.rank ≤ h'.phase.rank := by
  induction calls generalizing s h with
  | nil =>
    rw [run_nil, hh] at hh'
    cases hh'
    exact le_rfl
  | cons c calls ih =>
    have hmid : ((set.call c.1 s c.2).2.entry m).holds d = true := by
      simpa using hheld 1 (by simp)
    obtain ⟨x, hx, hxd⟩ := StoreEntry.holds_iff.mp hmid
    obtain ⟨y, hy, hyd⟩ := StoreEntry.holds_iff.mp (hheld 0 (by simp))
    have hhd : h.eventDigest = d := by
      rw [List.take_zero, run_nil, hh] at hy
      cases hy
      exact hyd
    obtain ⟨live, -, hprog⟩ := call_progress set c.1 s c.2 m
    have hstep : h.phase.rank ≤ x.phase.rank := hprog.rank h x hh hx (hxd.trans hhd.symm)
    have hrest : x.phase.rank ≤ h'.phase.rank := by
      apply ih (s := (set.call c.1 s c.2).2) ?_ hx hh'
      intro k hk
      simpa using hheld (k+1) (by simpa using hk)
    omega

theorem run_marker {set : StoreSet} {m : CredentialStore} (calls : List (Answers × Call))
    {s : Stores} {x : LastRevealMarker} (hx : (s.entry m).marker = some x) :
    ∃ y, ((set.run s calls).entry m).marker = some y ∧
      x.sequence.toNat ≤ y.sequence.toNat := by
  induction calls generalizing s x with
  | nil => exact ⟨x, hx, le_rfl⟩
  | cons c calls ih =>
    obtain ⟨live, -, hprog⟩ := call_progress set c.1 s c.2 m
    obtain ⟨y, hy, hxy⟩ := hprog.marker x hx
    obtain ⟨z, hz, hyz⟩ := ih hy
    exact ⟨z, hz, hxy.trans hyz⟩

/-- Over every run from every stored state, whatever reads and writes fail: in
each member a digest that stays held never falls in rank and the marker's
sequence never falls; and the next call keeps another ceremony's live handle
unless it is `compose`, and changes nothing where it returns an error. -/
theorem store_transitions_monotone (set : StoreSet) (s : Stores)
    (calls : List (Answers × Call)) (m : CredentialStore) :
    (∀ d h h', (∀ k ≤ calls.length, ((set.run s (calls.take k)).entry m).holds d = true) →
      (s.entry m).handle = some h → ((set.run s calls).entry m).handle = some h' →
      h.phase.rank ≤ h'.phase.rank) ∧
    (∀ x, (s.entry m).marker = some x → ∃ y, ((set.run s calls).entry m).marker = some y ∧
      x.sequence.toNat ≤ y.sequence.toNat) ∧
    ∀ (a : Answers) (c : Call),
      (∀ snapshot h, set.snapshot a (set.run s calls) = .ok snapshot →
        (∀ kind d basis, c ≠ .compose kind d basis) →
        ((set.run s calls).entry m).handle = some h → h.eventDigest ≠ c.digest →
        snapshot.isLive h.eventDigest = true →
        ((set.call a (set.run s calls) c).2.entry m).handle = some h) ∧
      ∀ e, (set.call a (set.run s calls) c).1 = .error e →
        (set.call a (set.run s calls) c).2 = set.run s calls := by
  refine ⟨?_, ?_, ?_⟩
  · intro d h h' hheld hh hh'
    exact run_rank calls hheld hh hh'
  · intro x hx
    exact run_marker calls hx
  · intro a c
    refine ⟨?_, ?_⟩
    · intro snapshot h hs hc hh hd hl
      obtain ⟨live, hlive, hprog⟩ := call_progress set a (set.run s calls) c m
      apply hprog.foreign hc h hh hd
      rw [hlive snapshot hs]
      exact hl
    · intro e he
      obtain ⟨e', hcall⟩ | ⟨snapshot, planned, -, -, -, hcall⟩ :=
        call_cases set a (set.run s calls) c
      · rw [hcall]
      · rw [hcall] at he
        cases he

end ScpCore.Recovery
