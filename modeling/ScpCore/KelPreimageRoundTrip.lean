import ScpCore.KelPreimage

/-! Each reader of the preimage succeeds exactly on what the matching writer
emits, field by field and then for the whole preimage. -/

namespace ScpCore.Kel

section Words
variable {ε : Type}

theorem readBe_ok_iff (n : ℕ) (e : ε) (b : Bytes) (x : BitVec (8*n)) (r : Bytes) :
    readBe n e b = .ok (x, r) ↔ b = beBytes n x.toNat ++ r := by
  simpa only [true_and] using readBe_exact n e b x r

theorem readPoint_ok_iff (e : ε) (b : Bytes) (x : Key) (r : Bytes) :
    readPoint e b = .ok (x, r) ↔ b = pointOut x ++ r :=
  readBe_ok_iff 33 e b x r

theorem readDigest_ok_iff (e : ε) (b : Bytes) (x : Digest) (r : Bytes) :
    readDigest e b = .ok (x, r) ↔ b = digestOut x ++ r :=
  readBe_ok_iff 32 e b x r

theorem readU32_ok_iff (e : ε) (b : Bytes) (x : U32) (r : Bytes) :
    readU32 e b = .ok (x, r) ↔ b = u32Out x ++ r :=
  readBe_ok_iff 4 e b x r

theorem readU64_ok_iff (e : ε) (b : Bytes) (x : U64) (r : Bytes) :
    readU64 e b = .ok (x, r) ↔ b = u64Out x ++ r :=
  readBe_ok_iff 8 e b x r

theorem readU8_ok_iff (e : ε) (b : Bytes) (x : UInt8) (r : Bytes) :
    readU8 e b = .ok (x, r) ↔ b = x :: r := by
  simpa only [true_and, List.singleton_append] using readU8_exact e b x r

end Words

/-- Registered discriminators name every value, each by its own byte. -/
class LawfulNameBound (α : Type) [NameBound α] : Prop where
  mem_all : ∀ v : α, v ∈ NameBound.all
  toByte_injective : Function.Injective (NameBound.toByte : α → UInt8)

instance : LawfulNameBound KeyRole where
  mem_all v := by cases v <;> decide
  toByte_injective v w h := by cases v <;> cases w <;> simp_all [NameBound.toByte]

instance : LawfulNameBound KeyCondition where
  mem_all v := by cases v <;> decide
  toByte_injective v w h := by cases v <;> cases w <;> simp_all [NameBound.toByte]

instance : LawfulNameBound CustodyType where
  mem_all v := by cases v <;> decide
  toByte_injective v w h := by cases v <;> cases w <;> simp_all [NameBound.toByte]

instance : LawfulNameBound KeyAlgorithm where
  mem_all v := by cases v; decide
  toByte_injective v w h := by cases v; cases w; rfl

/-- Looking a byte up by an injective naming of a complete list inverts the naming. -/
theorem find_byte_eq_some_iff {α : Type} {byte : α → UInt8} (hb : Function.Injective byte)
    {all : List α} (hall : ∀ v, v ∈ all) (value : UInt8) (v : α) :
    all.find? (fun w => byte w == value) = some v ↔ value = byte v := by
  constructor
  · intro h
    have hv := List.find?_some h
    simp only [beq_iff_eq] at hv
    exact hv.symm
  · rintro rfl
    cases hf : all.find? (fun w => byte w == byte v) with
    | none =>
      have hn := List.find?_eq_none.mp hf v (hall v)
      simp at hn
    | some w =>
      have hw := List.find?_some hf
      simp only [beq_iff_eq] at hw
      rw [hb hw]

theorem tryFrom_ok_iff {α : Type} [NameBound α] [LawfulNameBound α] (value : UInt8) (v : α) :
    NameBound.tryFrom value = .ok v ↔ value = NameBound.toByte v := by
  rw [← find_byte_eq_some_iff LawfulNameBound.toByte_injective LawfulNameBound.mem_all value v]
  unfold NameBound.tryFrom
  split
  · rename_i w hw
    rw [hw]
    simp
  · rename_i hn
    rw [hn]
    simp

theorem kindFromByte_eq_some_iff (value : UInt8) (kind : EventKind) :
    kindFromByte value = some kind ↔ value = kindByte kind := by
  apply find_byte_eq_some_iff
  · intro v w h
    cases v <;> cases w <;> simp_all [kindByte]
  · intro v
    cases v <;> decide

theorem formFromByte_eq_some_iff (value : UInt8) (form : SignatureForm) :
    formFromByte value = some form ↔ value = formByte form := by
  apply find_byte_eq_some_iff
  · intro v w h
    cases v <;> cases w <;> simp_all [formByte]
  · intro v
    cases v <;> decide

theorem discriminator_ok_iff {α : Type} [NameBound α] [LawfulNameBound α] (enclosing : BodyField)
    (field : DidDiscriminatorField) (b : Bytes) (x : α) (r : Bytes) :
    discriminator enclosing field b = .ok (x, r) ↔ b = NameBound.toByte x :: r := by
  simp only [discriminator, bind_ok_iff, Prod.exists, readU8_ok_iff, mapError_ok_iff,
    tryFrom_ok_iff, pure_ok_iff, Prod.mk.injEq]
  constructor
  · rintro ⟨value, b', rfl, v, rfl, rfl, rfl⟩
    rfl
  · rintro rfl
    exact ⟨_, r, rfl, x, rfl, rfl, rfl⟩

section Counts
variable {ε : Type}

/-- A list of length `len` is within its registered bound and its four-byte count. -/
def CountOk (list : ListField) (len : ℕ) : Prop := (∀ max ∈ countCap list, len ≤ max) ∧ len < 2^32

theorem checkCap_ok_iff (list : ListField) (overMax : ℕ → ε) (count : ℕ) (u : Unit) :
    checkCap list overMax count = .ok u ↔ ∀ max ∈ countCap list, count ≤ max := by
  unfold checkCap
  split
  · rename_i max hmax
    simp [hmax]
  · rename_i hnone
    simp [hnone]

theorem putCount_ok_iff (list : ListField) (len : ℕ) (b : Bytes) :
    putCount list len = .ok b ↔ CountOk list len ∧ b = beBytes 4 len := by
  simp only [putCount, bind_ok_iff, exists_unit_iff, checkCap_ok_iff, require_ok_iff,
    decide_eq_true_eq, pure_ok_iff, CountOk]
  constructor
  · rintro ⟨hc, hl, rfl⟩
    exact ⟨⟨hc, hl⟩, rfl⟩
  · rintro ⟨⟨hc, hl⟩, rfl⟩
    exact ⟨hc, hl, rfl⟩

theorem readCount_ok_iff (list : ListField) (truncated : ε) (overMax overRemaining : ℕ → ℕ → ε)
    (elementBytes : ℕ) (b : Bytes) (n : ℕ) (r : Bytes) :
    readCount list truncated overMax overRemaining elementBytes b = .ok (n, r) ↔
      (CountOk list n ∧ n*elementBytes ≤ r.length) ∧ b = beBytes 4 n ++ r := by
  simp only [readCount, bind_ok_iff, exists_unit_iff, Prod.exists, readU32_ok_iff, checkCap_ok_iff,
    require_ok_iff, decide_eq_true_eq, pure_ok_iff, Prod.mk.injEq, CountOk]
  constructor
  · rintro ⟨word, r', rfl, hc, hr, rfl, rfl⟩
    exact ⟨⟨⟨hc, word.isLt⟩, hr⟩, rfl⟩
  · rintro ⟨⟨⟨hc, hl⟩, hr⟩, rfl⟩
    have hw : (BitVec.ofNat 32 n).toNat = n := Nat.mod_eq_of_lt hl
    refine ⟨BitVec.ofNat 32 n, r, ?_, ?_, ?_, hw, rfl⟩
    · rw [u32Out, hw]
    · rwa [hw]
    · rwa [hw]

end Counts

section Body

theorem compositeSentinel_eq : compositeSentinel = beBytes 4 0 := by decide

theorem countOk_zero (list : ListField) : CountOk list 0 := ⟨fun _ _ => Nat.zero_le _, by norm_num⟩

/-- A count and then the entries it counts. -/
def countedOut {α : Type} (out : α → Bytes) (xs : List α) : Bytes :=
  beBytes 4 xs.length ++ xs.flatMap out

theorem readBodyCount_ok_iff (field : BodyField) (list : BodyList) (elementBytes : ℕ) (b : Bytes)
    (n : ℕ) (r : Bytes) :
    readBodyCount field list elementBytes b = .ok (n, r) ↔
      (CountOk (.body list) n ∧ n*elementBytes ≤ r.length) ∧ b = beBytes 4 n ++ r :=
  readCount_ok_iff _ _ _ _ _ _ _ _

/-- A body count followed by its entries: the bytes-remaining check never
rejects what the entries themselves accept. -/
theorem exists_counted_iff {α : Type} {read : ℕ → Bytes → Except BodyError (α × Bytes)}
    {ok : α → Prop} {out : α → Bytes} {elementBytes : ℕ} (field : BodyField) (list : BodyList)
    (hread : ∀ i, Exact (read i) ok out) (hlen : ∀ x, (out x).length = elementBytes)
    (b : Bytes) (P : List α → Bytes → Prop) :
    (∃ n b', readBodyCount field list elementBytes b = .ok (n, b') ∧
      ∃ xs r, readMany read n b' = .ok (xs, r) ∧ P xs r) ↔
    ∃ xs r, ((CountOk (.body list) xs.length ∧ ∀ x ∈ xs, ok x) ∧ b = countedOut out xs ++ r) ∧
      P xs r := by
  have hmany := readMany_exact hread
  simp only [readBodyCount_ok_iff, hmany _ _ _ _]
  constructor
  · rintro ⟨n, b', ⟨⟨hc, _⟩, rfl⟩, xs, r, ⟨⟨rfl, hok⟩, rfl⟩, hP⟩
    exact ⟨xs, r, ⟨⟨hc, hok⟩, by simp [countedOut]⟩, hP⟩
  · rintro ⟨xs, r, ⟨⟨hc, hok⟩, rfl⟩, hP⟩
    refine ⟨xs.length, xs.flatMap out ++ r, ⟨⟨hc, ?_⟩, by simp [countedOut]⟩, xs, r,
      ⟨⟨rfl, hok⟩, rfl⟩, hP⟩
    have hl := flatMap_length_const out elementBytes xs (fun x _ => hlen x)
    rw [List.length_append, hl]
    omega

theorem readPoint_exact {ε : Type} (e : ε) : Exact (readPoint e) (fun _ => True) pointOut :=
  readBe_exact 33 e

theorem readDigest_exact {ε : Type} (e : ε) : Exact (readDigest e) (fun _ => True) digestOut :=
  readBe_exact 32 e

theorem readU64_exact {ε : Type} (e : ε) : Exact (readU64 e) (fun _ => True) u64Out :=
  readBe_exact 8 e

theorem pointOut_length (key : Key) : (pointOut key).length = pointBytes := beBytes_length 33 _

theorem digestOut_length (digest : Digest) : (digestOut digest).length = digestBytes :=
  beBytes_length 32 _

theorem readPoints_exact (field : BodyField) (list : BodyList) :
    Exact (readPoints field list) (fun keys => CountOk (.body list) keys.length)
      (countedOut pointOut) := by
  intro b keys r
  have h := exists_counted_iff field list (fun _ => readPoint_exact (.truncated field))
    pointOut_length b (fun xs r' => xs = keys ∧ r' = r)
  simp only [readPoints, bind_ok_iff, Prod.exists]
  simpa using h

/-- `compromised_from` is zero unless the entry is compromised. -/
def KeyEntryOk (entry : KeyEntry) : Prop :=
  entry.condition = .compromised ∨ entry.compromisedFrom = 0

theorem readKeyEntry_exact (i : ℕ) : Exact (readKeyEntry i) KeyEntryOk keyEntryOut := by
  intro b entry r
  simp only [readKeyEntry, bind_ok_iff, Prod.exists, readPoint_ok_iff, discriminator_ok_iff,
    readU64_ok_iff, exists_unit_iff, require_ok_iff, Bool.or_eq_true, decide_eq_true_eq,
    pure_ok_iff, Prod.mk.injEq]
  constructor
  · rintro ⟨key, _, rfl, role, _, rfl, condition, _, rfl, compromisedFrom, _, rfl, hc,
      custody, _, rfl, algorithm, _, rfl, rfl, rfl⟩
    exact ⟨hc, by simp [keyEntryOut]⟩
  · rintro ⟨hc, rfl⟩
    exact ⟨_, _, by simp [keyEntryOut], _, _, rfl, _, _, rfl, _, _, rfl, hc, _, _, rfl, _, _,
      rfl, rfl, rfl⟩

theorem keyEntryOut_length (entry : KeyEntry) : (keyEntryOut entry).length = keyEntryBytes := by
  simp [keyEntryOut, pointOut, u64Out, keyEntryBytes]

theorem readCommitmentEntry_exact :
    Exact readCommitmentEntry (fun _ => True) commitmentEntryOut := by
  intro b entry r
  simp only [readCommitmentEntry, bind_ok_iff, Prod.exists, readDigest_ok_iff,
    discriminator_ok_iff, pure_ok_iff, Prod.mk.injEq, true_and]
  constructor
  · rintro ⟨commitment, _, rfl, custody, _, rfl, algorithm, _, rfl, rfl, rfl⟩
    simp [commitmentEntryOut]
  · rintro rfl
    exact ⟨_, _, by simp [commitmentEntryOut], _, _, rfl, _, _, rfl, rfl, rfl⟩

theorem commitmentEntryOut_length (entry : CommitmentEntry) :
    (commitmentEntryOut entry).length = commitmentEntryBytes := by
  simp [commitmentEntryOut, digestOut, commitmentEntryBytes]

/-- Field 9 as it can be written: present only with a member. -/
def InstalledRootSetOk (field : Option InstalledRootSet) : Prop :=
  ∀ set ∈ field, set.members ≠ [] ∧ CountOk (.body .installedRootSet) set.members.length

def installedRootSetOut : Option InstalledRootSet → Bytes
  | none => compositeSentinel
  | some set => countedOut pointOut set.members ++ u32Out set.threshold

theorem readInstalledRootSet_exact :
    Exact readInstalledRootSet InstalledRootSetOk installedRootSetOut := by
  intro b field r
  have hmany := readMany_exact (fun _ => readPoint_exact (BodyError.truncated .installedRootSet))
  simp only [readInstalledRootSet, bind_ok_iff, Prod.exists, readBodyCount_ok_iff]
  constructor
  · rintro ⟨n, b', ⟨⟨hc, _⟩, rfl⟩, h⟩
    by_cases hn : n = 0
    · -- A zero count is the sentinel and ends the field.
      simp only [hn, if_true, pure_ok_iff, Prod.mk.injEq] at h
      obtain ⟨rfl, rfl⟩ := h
      exact ⟨by simp [InstalledRootSetOk], by rw [hn, installedRootSetOut, compositeSentinel_eq]⟩
    · simp only [hn, if_false, bind_ok_iff, Prod.exists, hmany _ _ _ _, readU32_ok_iff,
        pure_ok_iff, Prod.mk.injEq] at h
      obtain ⟨members, _, ⟨⟨rfl, _⟩, rfl⟩, threshold, _, rfl, rfl, rfl⟩ := h
      refine ⟨?_, by simp [installedRootSetOut, countedOut]⟩
      intro set hset
      obtain rfl := Option.mem_some_iff.mp hset
      exact ⟨by simpa using hn, hc⟩
  · rintro ⟨hok, rfl⟩
    cases field with
    | none =>
      refine ⟨0, r, ⟨⟨countOk_zero _, by omega⟩, ?_⟩, by simp⟩
      rw [installedRootSetOut, compositeSentinel_eq]
    | some set =>
      obtain ⟨hne, hc⟩ := hok set rfl
      have hl := flatMap_length_const pointOut pointBytes set.members (fun x _ => pointOut_length x)
      refine ⟨set.members.length, set.members.flatMap pointOut ++ (u32Out set.threshold ++ r),
        ⟨⟨hc, ?_⟩, by simp [installedRootSetOut, countedOut]⟩, ?_⟩
      · rw [List.length_append, hl]
        omega
      · have hn : set.members.length ≠ 0 := by simpa using hne
        simp only [hn, if_false, bind_ok_iff, Prod.exists, hmany _ _ _ _, readU32_ok_iff,
          pure_ok_iff, Prod.mk.injEq]
        exact ⟨set.members, _, ⟨⟨rfl, by simp⟩, rfl⟩, set.threshold, r, rfl, rfl, rfl⟩

/-- Field 10 as it can be written: present only with a nonzero threshold. -/
structure SnapshotOk (s : KeyStateSnapshot) : Prop where
  threshold : s.rootThreshold ≠ 0
  keyCount : CountOk (.body .snapshotKeys) s.keys.length
  keys : ∀ entry ∈ s.keys, KeyEntryOk entry
  witnessCount : CountOk (.body .witnesses) s.witnesses.length

def snapshotOut : Option KeyStateSnapshot → Bytes
  | none => compositeSentinel
  | some s =>
    u32Out s.rootThreshold ++ countedOut keyEntryOut s.keys ++ countedOut digestOut s.witnesses ++
      u32Out s.witnessingInterval ++ [NameBound.toByte s.serviceKeyRole] ++ digestOut s.delegator

theorem readSnapshot_exact :
    Exact readSnapshot (fun field => ∀ s ∈ field, SnapshotOk s) snapshotOut := by
  intro b field r
  simp only [readSnapshot, bind_ok_iff, Prod.exists, readU32_ok_iff]
  constructor
  · rintro ⟨threshold, b', rfl, h⟩
    by_cases ht : threshold = 0
    · simp only [ht, if_true, pure_ok_iff, Prod.mk.injEq] at h
      obtain ⟨rfl, rfl⟩ := h
      refine ⟨by simp, ?_⟩
      rw [ht, snapshotOut, compositeSentinel_eq]
      rfl
    · simp only [ht, if_false, bind_ok_iff, Prod.exists,
        exists_counted_iff .keyState .snapshotKeys readKeyEntry_exact keyEntryOut_length,
        exists_counted_iff .keyState .witnesses
          (fun _ => readDigest_exact (BodyError.truncated .keyState)) digestOut_length,
        readU32_ok_iff, discriminator_ok_iff, readDigest_ok_iff, pure_ok_iff, Prod.mk.injEq] at h
      obtain ⟨keys, _, ⟨⟨hkc, hk⟩, rfl⟩, witnesses, _, ⟨⟨hwc, _⟩, rfl⟩, interval, _, rfl, role, _,
        rfl, delegator, _, rfl, rfl, rfl⟩ := h
      refine ⟨?_, by simp [snapshotOut]⟩
      intro s hs
      obtain rfl := Option.mem_some_iff.mp hs
      exact ⟨ht, hkc, hk, hwc⟩
  · rintro ⟨hok, rfl⟩
    cases field with
    | none => exact ⟨0, r, rfl, by simp⟩
    | some s =>
      obtain ⟨ht, hkc, hk, hwc⟩ := hok s rfl
      refine ⟨s.rootThreshold, countedOut keyEntryOut s.keys ++ (countedOut digestOut s.witnesses ++
        (u32Out s.witnessingInterval ++ NameBound.toByte s.serviceKeyRole ::
          (digestOut s.delegator ++ r))), by simp [snapshotOut], ?_⟩
      simp only [ht, if_false, bind_ok_iff, Prod.exists,
        exists_counted_iff .keyState .snapshotKeys readKeyEntry_exact keyEntryOut_length,
        exists_counted_iff .keyState .witnesses
          (fun _ => readDigest_exact (BodyError.truncated .keyState)) digestOut_length,
        readU32_ok_iff, discriminator_ok_iff, readDigest_ok_iff, pure_ok_iff, Prod.mk.injEq]
      exact ⟨s.keys, _, ⟨⟨hkc, hk⟩, rfl⟩, s.witnesses, _, ⟨⟨hwc, by simp⟩, rfl⟩, _, _, rfl, _, _,
        rfl, _, _, rfl, rfl, rfl⟩

/-- Field 12 as it can be written. -/
def ContinuationOk (field : Option Continuation) : Prop :=
  ∀ commitment, field = some (.fixesCommitment commitment) →
    CountOk (.body .commitments) commitment.commitments.length

def continuationOut : Option Continuation → Bytes
  | none => compositeSentinel
  | some .abandons => [continuationAbandons]
  | some (.fixesCommitment c) =>
    [continuationFixesCommitment] ++ countedOut commitmentEntryOut c.commitments ++
      u32Out c.nextThreshold

theorem readCommitment_ok_iff (b : Bytes) (c : FixedCommitment) (r : Bytes) :
    readCommitment b = .ok (c, r) ↔ CountOk (.body .commitments) c.commitments.length ∧
      b = countedOut commitmentEntryOut c.commitments ++ u32Out c.nextThreshold ++ r := by
  simp only [readCommitment, bind_ok_iff, Prod.exists,
    exists_counted_iff .continuation .commitments (fun _ => readCommitmentEntry_exact)
      commitmentEntryOut_length, readU32_ok_iff, pure_ok_iff, Prod.mk.injEq]
  constructor
  · rintro ⟨entries, _, ⟨⟨hc, _⟩, rfl⟩, threshold, _, rfl, rfl, rfl⟩
    exact ⟨hc, by simp⟩
  · rintro ⟨hc, rfl⟩
    exact ⟨c.commitments, _, ⟨⟨hc, by simp⟩, by simp⟩, _, _, rfl, rfl, rfl⟩

theorem trailingFree_ok_iff (b : Bytes) (u : Unit) : trailingFree b = .ok u ↔ b = [] := by
  simp [trailingFree]

theorem readContinuation_ok_iff (b : Bytes) (field : Option Continuation) :
    readContinuation b = .ok field ↔ ContinuationOk field ∧ b = continuationOut field := by
  unfold readContinuation
  by_cases hs : b.take 4 = compositeSentinel
  · have hb : b = compositeSentinel ++ b.drop 4 := by rw [← hs, List.take_append_drop]
    simp only [hs, if_true, bind_ok_iff, exists_unit_iff, trailingFree_ok_iff, pure_ok_iff]
    constructor
    · rintro ⟨hd, rfl⟩
      rw [hd, List.append_nil] at hb
      exact ⟨by simp [ContinuationOk], hb⟩
    · rintro ⟨_, rfl⟩
      -- Only the sentinel itself starts with four zero bytes.
      rcases field with _ | ⟨c⟩ | _
      · exact ⟨rfl, rfl⟩
      · simp [continuationOut, compositeSentinel, continuationFixesCommitment] at hs
      · simp [continuationOut, compositeSentinel] at hs
  · simp only [hs, if_false]
    cases b with
    | nil =>
      rcases field with _ | ⟨c⟩ | _ <;> simp [continuationOut, compositeSentinel]
    | cons value trailing =>
      by_cases h0 : value = continuationAbandons
      · simp only [h0, if_true, bind_ok_iff, exists_unit_iff, require_ok_iff, trailingFree_ok_iff,
          pure_ok_iff]
        constructor
        · rintro ⟨_, rfl, rfl⟩
          exact ⟨by simp [ContinuationOk], rfl⟩
        · rintro ⟨_, hb⟩
          rcases field with _ | ⟨c⟩ | _
          · exact absurd (by rw [h0, hb]; rfl) hs
          · simp [continuationOut, continuationFixesCommitment, continuationAbandons] at hb
          · simp only [continuationOut, List.cons.injEq, true_and] at hb
            simp [hb]
      · by_cases h1 : value = continuationFixesCommitment
        · simp only [h1, if_true]
          rw [if_neg (by decide)]
          simp only [bind_ok_iff, Prod.exists, readCommitment_ok_iff,
            exists_unit_iff, trailingFree_ok_iff, pure_ok_iff]
          constructor
          · rintro ⟨c, _, ⟨hc, rfl⟩, rfl, rfl⟩
            refine ⟨?_, by simp [continuationOut]⟩
            intro c' hc'
            cases hc'
            exact hc
          · rintro ⟨hc, hb⟩
            rcases field with _ | ⟨c⟩ | _
            · simp [continuationOut, compositeSentinel, continuationFixesCommitment] at hb
            · refine ⟨c, [], ⟨hc c rfl, ?_⟩, rfl, rfl⟩
              simpa [continuationOut] using hb
            · simp [continuationOut, continuationAbandons, continuationFixesCommitment] at hb
        · simp only [h0, if_false, h1, throw_ne_ok, false_iff, not_and]
          rintro _ hb
          rcases field with _ | ⟨c⟩ | _
          · simp [continuationOut, compositeSentinel] at hb
            exact h0 hb.1
          · simp [continuationOut] at hb
            exact h1 hb.1
          · simp [continuationOut] at hb
            exact h0 hb.1

/-- Fields 8 through 12 as they can be written. -/
structure BodyOk (p : EventPreimage) : Prop where
  revealed : CountOk (.body .revealedKeys) p.revealedKeys.length
  installed : InstalledRootSetOk p.installedRootSet
  snapshot : ∀ s ∈ p.keyState, SnapshotOk s
  seals : CountOk (.body .seals) p.seals.length
  continuation : ContinuationOk p.continuation

def bodyOut (p : EventPreimage) : Bytes :=
  countedOut pointOut p.revealedKeys ++ installedRootSetOut p.installedRootSet ++
    snapshotOut p.keyState ++ countedOut digestOut p.seals ++ continuationOut p.continuation

/-- The signer groups of a preimage whose header is `header`. -/
def EventHeader.signerGroups (header : EventHeader) : List SignerGroup :=
  header.groups.map (fun g => ⟨g.signers.map (·.index), g.signers.map (·.form)⟩)

/-- `p` carries the fields `header` read. -/
structure EventHeader.Heads (header : EventHeader) (p : EventPreimage) : Prop where
  kind : p.kind = header.kind
  identifier : p.identifier = header.identifier
  sequence : p.sequence = header.sequence
  predecessorDigest : p.predecessorDigest = header.predecessorDigest
  standingRoot : p.standingRoot = header.standingRoot
  signerGroups : p.signerGroups = header.signerGroups

theorem readBody_ok_iff (header : EventHeader) (b : Bytes) (p : EventPreimage) :
    readBody header b = .ok p ↔ header.Heads p ∧ BodyOk p ∧ b = bodyOut p := by
  simp only [readBody, bind_ok_iff, Prod.exists, readPoints_exact _ _ _ _ _,
    readInstalledRootSet_exact _ _ _, readSnapshot_exact _ _ _,
    exists_counted_iff .seals .seals
      (fun _ => readDigest_exact (BodyError.truncated .seals)) digestOut_length,
    readContinuation_ok_iff, pure_ok_iff]
  constructor
  · rintro ⟨revealed, _, ⟨hr, rfl⟩, installed, _, ⟨hi, rfl⟩, snapshot, _, ⟨hs, rfl⟩, seals, _,
      ⟨⟨hl, _⟩, rfl⟩, continuation, ⟨hc, rfl⟩, rfl⟩
    refine ⟨⟨rfl, rfl, rfl, rfl, rfl, rfl⟩, ⟨hr, hi, hs, hl, hc⟩, ?_⟩
    simp [bodyOut]
  · rintro ⟨hh, hok, rfl⟩
    refine ⟨p.revealedKeys, _, ⟨hok.revealed, by simp only [bodyOut, List.append_assoc]⟩,
      p.installedRootSet, _, ⟨hok.installed, rfl⟩, p.keyState, _, ⟨hok.snapshot, rfl⟩, p.seals, _,
      ⟨⟨hok.seals, by simp⟩, rfl⟩, p.continuation, ⟨hok.continuation, rfl⟩, ?_⟩
    obtain ⟨h1, h2, h3, h4, h5, h6⟩ := hh
    cases p
    simp only [EventHeader.signerGroups] at h1 h2 h3 h4 h5 h6
    simp only [h1, h2, h3, h4, h5, h6]

end Body

section Header

def indexListOut (indices : List UInt8) : Bytes := beBytes 4 indices.length ++ indices

def formListOut (forms : List SignatureForm) : Bytes :=
  beBytes 4 forms.length ++ forms.map formByte

theorem readIndexList_exact (role : SignerGroupRole) :
    Exact (readIndexList role) (fun xs => CountOk (.signer (.indices role)) xs.length)
      indexListOut := by
  intro b xs r
  simp only [readIndexList, readHeaderCount, bind_ok_iff, Prod.exists, readCount_ok_iff,
    readBytes_exact _ _ _ _ _, id]
  constructor
  · rintro ⟨n, _, ⟨⟨hc, _⟩, rfl⟩, rfl, rfl⟩
    exact ⟨hc, by simp [indexListOut]⟩
  · rintro ⟨hc, rfl⟩
    exact ⟨xs.length, xs ++ r, ⟨⟨hc, by simp⟩, by simp [indexListOut]⟩, rfl, rfl⟩

theorem readFormList_exact (role : SignerGroupRole) :
    Exact (readFormList role) (fun fs => CountOk (.signer (.forms role)) fs.length)
      formListOut := by
  intro b fs r
  have hform : ∀ value form, okOr (formFromByte value)
      (HeaderError.unknownDiscriminator .signatureForm value) = .ok form ↔
        value = formByte form := by
    intro value form
    rw [okOr_ok_iff, formFromByte_eq_some_iff]
  simp only [readFormList, readHeaderCount, bind_ok_iff, Prod.exists, readCount_ok_iff,
    readBytes_exact _ _ _ _ _, id, mapEach_ok_iff_inverse hform, pure_ok_iff, Prod.mk.injEq]
  constructor
  · rintro ⟨n, _, ⟨⟨hc, _⟩, rfl⟩, values, _, ⟨rfl, rfl⟩, forms, rfl, rfl, rfl⟩
    rw [List.length_map] at hc
    exact ⟨hc, by simp [formListOut]⟩
  · rintro ⟨hc, rfl⟩
    exact ⟨fs.length, fs.map formByte ++ r, ⟨⟨hc, by simp⟩, by simp [formListOut]⟩,
      fs.map formByte, r, ⟨by simp, rfl⟩, fs, rfl, rfl, rfl⟩

/-- The index and form lists a paired group came from. -/
def HeaderGroup.signerGroup (g : HeaderGroup) : SignerGroup :=
  ⟨g.signers.map (·.index), g.signers.map (·.form)⟩

theorem HeaderGroup.pair_ok_iff (role : SignerGroupRole) (group : SignerGroup) (g : HeaderGroup) :
    HeaderGroup.pair role group.indices group.forms = .ok g ↔
      role = g.role ∧ group = g.signerGroup := by
  obtain ⟨indices, forms⟩ := group
  simp only [HeaderGroup.pair, bind_ok_iff, exists_unit_iff, require_ok_iff, decide_eq_true_eq,
    pure_ok_iff, HeaderGroup.signerGroup, SignerGroup.mk.injEq]
  constructor
  · rintro ⟨hl, rfl⟩
    refine ⟨rfl, ?_, ?_⟩
    · rw [List.map_zipWith]
      exact (List.map_fst_zip (le_of_eq hl)).symm.trans (by rw [List.zip, List.map_zipWith])
    · rw [List.map_zipWith]
      exact (List.map_snd_zip (le_of_eq hl.symm)).symm.trans (by rw [List.zip, List.map_zipWith])
  · rintro ⟨rfl, rfl, rfl⟩
    obtain ⟨role, signers⟩ := g
    refine ⟨by simp, ?_⟩
    simp [List.zipWith_map, List.zipWith_self]

theorem zip_eq_map_iff {α β γ : Type} (as : List α) (bs : List β) (h : as.length = bs.length)
    (f : γ → α) (g : γ → β) (cs : List γ) :
    as.zip bs = cs.map (fun c => (f c, g c)) ↔ as = cs.map f ∧ bs = cs.map g := by
  constructor
  · intro hz
    have h1 := congrArg (List.map Prod.fst) hz
    have h2 := congrArg (List.map Prod.snd) hz
    rw [List.map_fst_zip (le_of_eq h)] at h1
    rw [List.map_snd_zip (le_of_eq h.symm)] at h2
    rw [List.map_map] at h1 h2
    exact ⟨h1, h2⟩
  · rintro ⟨rfl, rfl⟩
    exact List.zip_map'

/-- What fields 1 through 7 need to be written: the groups the kind names,
each paired and within its count bound. -/
structure HeaderOk (p : EventPreimage) (groups : List HeaderGroup) : Prop where
  roles : p.signerGroupRoles = some (groups.map (·.role))
  signerGroups : p.signerGroups = groups.map HeaderGroup.signerGroup
  indices : ∀ g ∈ groups, CountOk (.signer (.indices g.role)) g.signers.length

def leadingOut (p : EventPreimage) : Bytes :=
  [kindByte p.kind] ++ digestOut p.identifier ++ u64Out p.sequence ++
    digestOut p.predecessorDigest ++ [p.standingRoot.elim standingRootAbsent standingRootByte]

def groupsOut (groups : List SignerGroup) : Bytes :=
  groups.flatMap (fun g => indexListOut g.indices) ++ groups.flatMap (fun g => formListOut g.forms)

/-- The field bytes of a preimage. -/
def fieldsOut (p : EventPreimage) : Bytes := leadingOut p ++ groupsOut p.signerGroups ++ bodyOut p

theorem countOk_forms (role : SignerGroupRole) (len : ℕ)
    (h : CountOk (.signer (.indices role)) len) : CountOk (.signer (.forms role)) len :=
  ⟨by simp [countCap], h.2⟩

theorem readStandingRoot_ok_iff (b : Bytes) (root : Option StandingRootDeclaration) (r : Bytes) :
    readStandingRoot b = .ok (root, r) ↔
      b = root.elim standingRootAbsent standingRootByte :: r := by
  simp only [readStandingRoot, bind_ok_iff, Prod.exists, readU8_ok_iff]
  constructor
  · rintro ⟨value, b', rfl, h⟩
    split_ifs at h with h0 h1 h2
    all_goals simp only [pure_ok_iff, Prod.mk.injEq] at h
    all_goals obtain ⟨rfl, rfl⟩ := h
    · rw [h0]; rfl
    · rw [h1]; rfl
    · rw [h2]; rfl
  · rintro rfl
    refine ⟨_, r, rfl, ?_⟩
    rcases root with _ | _ | _ <;> rfl

/-- The lists read for `roles` pair into `groups` exactly where they are the
groups' own. -/
theorem pair_lists_iff (roles : List SignerGroupRole) (indexLists : List (List UInt8))
    (formLists : List (List SignatureForm)) (groups : List HeaderGroup)
    (hi : indexLists.length = roles.length) (hf : formLists.length = roles.length) :
    mapEach (fun (role, indices, forms) =>
        (HeaderGroup.pair role indices forms).mapError HeaderError.formListLength)
      (roles.zip (indexLists.zip formLists)) = .ok groups ↔
    roles = groups.map (·.role) ∧ indexLists = groups.map (fun g => g.signers.map (·.index)) ∧
      formLists = groups.map (fun g => g.signers.map (·.form)) := by
  have hpair : ∀ (t : SignerGroupRole × List UInt8 × List SignatureForm) g,
      (HeaderGroup.pair t.1 t.2.1 t.2.2).mapError HeaderError.formListLength = .ok g ↔
        t = (g.role, g.signers.map (·.index), g.signers.map (·.form)) := by
    rintro ⟨role, indices, forms⟩ g
    have h := HeaderGroup.pair_ok_iff role ⟨indices, forms⟩ g
    simpa only [mapError_ok_iff, HeaderGroup.signerGroup, SignerGroup.mk.injEq,
      Prod.mk.injEq] using h
  refine (mapEach_ok_iff_inverse hpair _ _).trans ?_
  have hz : roles.length = (indexLists.zip formLists).length := by simp [hi, hf]
  refine (zip_eq_map_iff roles _ hz (fun g => g.role)
    (fun g => (g.signers.map (·.index), g.signers.map (·.form))) groups).trans ?_
  refine and_congr_right' ?_
  exact zip_eq_map_iff indexLists formLists (hi.trans hf.symm) (fun g => g.signers.map (·.index))
    (fun g => g.signers.map (·.form)) groups

/-- The bytes a header was read from. -/
def EventHeader.out (header : EventHeader) : Bytes :=
  [kindByte header.kind] ++ digestOut header.identifier ++ u64Out header.sequence ++
    digestOut header.predecessorDigest ++
    [header.standingRoot.elim standingRootAbsent standingRootByte] ++ groupsOut header.signerGroups

/-- The checks of step 4 on a header read at `signedLen`. -/
structure EventHeader.Passes (header : EventHeader) (signedLen : ℕ) : Prop where
  roles : signerGroupRoles header.kind header.standingRoot = some (header.groups.map (·.role))
  indices : ∀ g ∈ header.groups, CountOk (.signer (.indices g.role)) g.signers.length
  encodedLen : header.encodedLen = encodedEventLen signedLen header.groups
  within : withinEventBytes header.encodedLen = true

theorem forall₂_map_map_iff {α β γ : Type} (R : α → β → Prop) (f : γ → α) (g : γ → β)
    (cs : List γ) : List.Forall₂ R (cs.map f) (cs.map g) ↔ ∀ c ∈ cs, R (f c) (g c) := by
  rw [List.forall₂_map_left_iff, List.forall₂_map_right_iff, List.forall₂_same]

theorem readHeader_ok_iff (signedLen : ℕ) (b : Bytes) (header : EventHeader) (r : Bytes) :
    readHeader signedLen b = .ok (header, r) ↔
      header.Passes signedLen ∧ b = header.out ++ r := by
  have hindex := readEach_exact readIndexList_exact
  have hforms := readEach_exact readFormList_exact
  simp only [readHeader, readLeading, readHeaderAfterLeading, bind_ok_iff, Prod.exists,
    mapError_ok_iff, readU8_ok_iff, readDigest_ok_iff, readU64_ok_iff, pure_ok_iff, Prod.mk.injEq,
    okOr_ok_iff, kindFromByte_eq_some_iff, readStandingRoot_ok_iff, hindex _ _ _ _, hforms _ _ _ _,
    exists_unit_iff, require_ok_iff]
  constructor
  · rintro ⟨leading, _, ⟨kind, _, rfl, identifier, _, rfl, sequence, _, rfl, predecessor, _, rfl,
      rfl, rfl⟩, kind', rfl, root, _, rfl, roles, hroles, indexLists, _, ⟨hi, rfl⟩, formLists, _,
      ⟨hf, rfl⟩, groups, hg, hw, rfl, rfl⟩
    rw [pair_lists_iff _ _ _ _ hi.length_eq.symm hf.length_eq.symm] at hg
    obtain ⟨rfl, rfl, rfl⟩ := hg
    rw [forall₂_map_map_iff] at hi
    refine ⟨⟨hroles, ?_, rfl, hw⟩, ?_⟩
    · intro g hgm
      simpa using hi g hgm
    · simp [EventHeader.out, groupsOut, EventHeader.signerGroups, List.flatMap_map]
  · rintro ⟨hok, rfl⟩
    obtain ⟨kind, identifier, sequence, predecessor, root, groups, len⟩ := header
    obtain ⟨hroles, hindices, hlen, hw⟩ := hok
    dsimp only at hroles hindices hlen hw
    subst hlen
    refine ⟨⟨kindByte kind, identifier, sequence, predecessor⟩, _, ⟨_, _, ?_, _, _, rfl, _, _, rfl,
      _, _, rfl, rfl, rfl⟩, kind, rfl, root, _, rfl, _, hroles,
      groups.map (fun g => g.signers.map (·.index)), _, ⟨?_, rfl⟩,
      groups.map (fun g => g.signers.map (·.form)), r, ⟨?_, rfl⟩, groups, ?_, hw, rfl, rfl⟩
    · simp [EventHeader.out, groupsOut, EventHeader.signerGroups, List.flatMap_map]
    · rw [forall₂_map_map_iff]
      simpa using hindices
    · rw [forall₂_map_map_iff]
      intro g hg
      simpa using countOk_forms _ _ (hindices g hg)
    · rw [pair_lists_iff _ _ _ _ (by simp) (by simp)]
      exact ⟨rfl, rfl, rfl⟩

end Header

section Whole

theorem writeInstalledRootSet_ok_iff (field : Option InstalledRootSet) (b : Bytes) :
    field.elim (pure compositeSentinel) writeInstalledRootSet = .ok b ↔
      InstalledRootSetOk field ∧ b = installedRootSetOut field := by
  cases field with
  | none =>
    simp only [Option.elim_none, pure_ok_iff, InstalledRootSetOk, Option.not_mem_none,
      false_implies, implies_true, true_and, installedRootSetOut]
    exact eq_comm
  | some set =>
    simp only [Option.elim_some, writeInstalledRootSet, bind_ok_iff, exists_unit_iff,
      require_ok_iff, putCount_ok_iff, pure_ok_iff, InstalledRootSetOk, installedRootSetOut,
      countedOut, Option.mem_some_iff, forall_eq', Bool.not_eq_true', List.isEmpty_eq_false_iff]
    constructor
    · rintro ⟨hne, _, ⟨hc, rfl⟩, rfl⟩
      exact ⟨⟨hne, hc⟩, rfl⟩
    · rintro ⟨⟨hne, hc⟩, rfl⟩
      exact ⟨hne, _, ⟨hc, rfl⟩, rfl⟩

theorem writeKeyEntry_ok_iff (t : KeyEntry × ℕ) (b : Bytes) :
    writeKeyEntry t.2 t.1 = .ok b ↔ KeyEntryOk t.1 ∧ b = keyEntryOut t.1 := by
  simp only [writeKeyEntry, bind_ok_iff, exists_unit_iff, require_ok_iff, Bool.or_eq_true,
    decide_eq_true_eq, pure_ok_iff, KeyEntryOk]
  exact and_congr_right' eq_comm

theorem writeSnapshot_ok_iff (field : Option KeyStateSnapshot) (b : Bytes) :
    field.elim (pure compositeSentinel) writeSnapshot = .ok b ↔
      (∀ s ∈ field, SnapshotOk s) ∧ b = snapshotOut field := by
  cases field with
  | none =>
    simp only [Option.elim_none, pure_ok_iff, Option.not_mem_none, false_implies, implies_true,
      true_and, snapshotOut]
    exact eq_comm
  | some s =>
    have hkeys := mapEach_ok_iff_map writeKeyEntry_ok_iff s.keys.zipIdx
    have hout : (s.keys.zipIdx.map (fun t => keyEntryOut t.1)).flatten = s.keys.flatMap keyEntryOut := by
      rw [List.flatMap_def, ← List.zipIdx_map_fst 0 s.keys, List.map_map, List.zipIdx_map_fst]
      rfl
    have hmem : (∀ t ∈ s.keys.zipIdx, KeyEntryOk t.1) ↔ ∀ entry ∈ s.keys, KeyEntryOk entry := by
      conv_rhs => rw [← List.zipIdx_map_fst 0 s.keys]
      exact List.forall_mem_map.symm
    simp only [Option.elim_some, writeSnapshot, bind_ok_iff, exists_unit_iff, require_ok_iff,
      decide_eq_true_eq, putCount_ok_iff, hkeys, hmem, pure_ok_iff, Option.mem_some_iff, forall_eq',
      snapshotOut, countedOut]
    constructor
    · rintro ⟨ht, _, ⟨hkc, rfl⟩, _, ⟨hk, rfl⟩, _, ⟨hwc, rfl⟩, rfl⟩
      exact ⟨⟨ht, hkc, hk, hwc⟩, by simp [hout]⟩
    · rintro ⟨⟨ht, hkc, hk, hwc⟩, rfl⟩
      exact ⟨ht, _, ⟨hkc, rfl⟩, _, ⟨hk, rfl⟩, _, ⟨hwc, rfl⟩, by simp [hout]⟩

theorem writeContinuation_ok_iff (field : Option Continuation) (b : Bytes) :
    writeContinuation field = .ok b ↔ ContinuationOk field ∧ b = continuationOut field := by
  rcases field with _ | ⟨c⟩ | _
  · simp only [writeContinuation, pure_ok_iff, ContinuationOk, reduceCtorEq, false_implies,
      implies_true, true_and, continuationOut]
    exact eq_comm
  · simp only [writeContinuation, bind_ok_iff, putCount_ok_iff, pure_ok_iff, ContinuationOk,
      continuationOut, countedOut, Option.some.injEq, Continuation.fixesCommitment.injEq,
      forall_eq']
    constructor
    · rintro ⟨_, ⟨hc, rfl⟩, rfl⟩
      exact ⟨hc, by simp⟩
    · rintro ⟨hc, rfl⟩
      exact ⟨_, ⟨hc, rfl⟩, by simp⟩
  · simp only [writeContinuation, pure_ok_iff, ContinuationOk, Option.some.injEq, reduceCtorEq,
      false_implies, implies_true, true_and, continuationOut]
    exact eq_comm

/-- The preimages the codec carries. -/
def PreimageOk (p : EventPreimage) : Prop :=
  ∃ groups, HeaderOk p groups ∧ BodyOk p ∧
    withinEventBytes (encodedEventLen (signedLenOf (fieldsOut p)) groups) = true

theorem putList_ok_iff (list : SignerGroupRole → ListField) (len : SignerGroup → ℕ)
    (out : SignerGroup → Bytes) (t : SignerGroup × SignerGroupRole) (b : Bytes) :
    (do let count ← putCount (list t.2) (len t.1); pure (count ++ out t.1)) = Except.ok b ↔
      CountOk (list t.2) (len t.1) ∧ b = beBytes 4 (len t.1) ++ out t.1 := by
  simp only [bind_ok_iff, putCount_ok_iff, pure_ok_iff]
  constructor
  · rintro ⟨_, ⟨hc, rfl⟩, rfl⟩
    exact ⟨hc, rfl⟩
  · rintro ⟨hc, rfl⟩
    exact ⟨_, ⟨hc, rfl⟩, rfl⟩

theorem writeFields_ok_iff (p : EventPreimage) (groups : List HeaderGroup) (b : Bytes) :
    writeFields p = .ok (groups, b) ↔ HeaderOk p groups ∧ BodyOk p ∧ b = fieldsOut p := by
  -- The header lists are written group by group, in the order of the roles.
  have hindices := mapEach_ok_iff_map
    (putList_ok_iff (fun role => .signer (.indices role)) (·.indices.length) (·.indices))
  have hforms := mapEach_ok_iff_map
    (putList_ok_iff (fun role => .signer (.forms role)) (·.forms.length) (·.forms.map formByte))
  have hpairs := mapEach_ok_iff_inverse (f := fun t : SignerGroup × SignerGroupRole =>
      (HeaderGroup.pair t.2 t.1.indices t.1.forms).mapError EncodeError.formListLength)
    (g := fun g : HeaderGroup => (g.signerGroup, g.role)) (by
      rintro ⟨group, role⟩ g
      rw [mapError_ok_iff, HeaderGroup.pair_ok_iff, Prod.mk.injEq, and_comm])
  simp only [writeFields, bind_ok_iff, okOr_ok_iff, exists_unit_iff, require_ok_iff,
    decide_eq_true_eq, hindices, hforms, hpairs, putCount_ok_iff, writeInstalledRootSet_ok_iff,
    writeSnapshot_ok_iff, writeContinuation_ok_iff, pure_ok_iff, Prod.mk.injEq]
  constructor
  · rintro ⟨roles, hroles, hlen, _, ⟨hi, rfl⟩, _, ⟨_, rfl⟩, gs, hz, _, ⟨hr, rfl⟩, _, ⟨hinst, rfl⟩, _,
      ⟨hs, rfl⟩, _, ⟨hse, rfl⟩, _, ⟨hc, rfl⟩, rfl, rfl⟩
    rw [zip_eq_map_iff _ _ hlen] at hz
    obtain ⟨hsg, rfl⟩ := hz
    refine ⟨⟨hroles, hsg, ?_⟩, ⟨hr, hinst, hs, hse, hc⟩, ?_⟩
    · intro g hg
      have hm : (g.signerGroup, g.role) ∈ p.signerGroups.zip (gs.map (·.role)) := by
        rw [hsg, List.zip_map']
        exact List.mem_map_of_mem hg
      simpa [HeaderGroup.signerGroup] using hi _ hm
    · rw [hsg, List.zip_map', List.map_map, List.map_map]
      simp [fieldsOut, leadingOut, groupsOut, bodyOut, countedOut, indexListOut, formListOut,
        hsg, List.flatMap_def, Function.comp_def]
  · rintro ⟨hh, hb, rfl⟩
    have hlen : p.signerGroups.length = (groups.map (·.role)).length := by simp [hh.signerGroups]
    have hz : p.signerGroups.zip (groups.map (·.role)) =
        groups.map (fun g => (g.signerGroup, g.role)) := by
      rw [hh.signerGroups, List.zip_map']
    refine ⟨_, hh.roles, hlen, _, ⟨?_, rfl⟩, _, ⟨?_, rfl⟩, groups, hz, _, ⟨hb.revealed, rfl⟩, _,
      ⟨hb.installed, rfl⟩, _, ⟨hb.snapshot, rfl⟩, _, ⟨hb.seals, rfl⟩, _, ⟨hb.continuation, rfl⟩,
      rfl, ?_⟩
    · rw [hz]
      simpa [HeaderGroup.signerGroup] using hh.indices
    · rw [hz]
      intro t ht
      obtain ⟨g, hg, rfl⟩ := List.mem_map.mp ht
      simpa [HeaderGroup.signerGroup] using countOk_forms _ _ (hh.indices g hg)
    · rw [hz, List.map_map, List.map_map]
      simp [fieldsOut, leadingOut, groupsOut, bodyOut, countedOut, indexListOut, formListOut,
        hh.signerGroups, List.flatMap_def, Function.comp_def]

theorem encodePreimage_ok_iff (p : EventPreimage) (e : EncodedPreimage) :
    encodePreimage p = .ok e ↔ PreimageOk p ∧ e = ⟨p, fieldsOut p⟩ := by
  simp only [encodePreimage, bind_ok_iff, Prod.exists, writeFields_ok_iff, exists_unit_iff,
    require_ok_iff, pure_ok_iff, PreimageOk]
  constructor
  · rintro ⟨groups, _, ⟨hh, hb, rfl⟩, hw, rfl⟩
    exact ⟨⟨groups, hh, hb, hw⟩, rfl⟩
  · rintro ⟨⟨groups, hh, hb, hw⟩, rfl⟩
    exact ⟨groups, _, ⟨hh, hb, rfl⟩, hw, rfl⟩

theorem readEvent_ok {b : Bytes} {signedLen : ℕ} {header : EventHeader} {p : EventPreimage}
    (h : readEvent b signedLen = .ok (header, .ok p)) :
    header.Passes signedLen ∧ header.Heads p ∧ BodyOk p ∧ b = header.out ++ bodyOut p := by
  simp only [readEvent, bind_ok_iff, Prod.exists, readHeader_ok_iff, pure_ok_iff,
    Prod.mk.injEq] at h
  obtain ⟨header', r, ⟨hp, rfl⟩, rfl, hbody⟩ := h
  obtain ⟨hh, hb, rfl⟩ := (readBody_ok_iff _ _ _).mp hbody
  exact ⟨hp, hh, hb, rfl⟩

/-- A header and a body read from one slice are the slice's preimage. -/
theorem readEvent_ok_iff (b : Bytes) (signedLen : ℕ) (p : EventPreimage) :
    (∃ header, readEvent b signedLen = .ok (header, .ok p)) ↔
      ∃ groups, HeaderOk p groups ∧ BodyOk p ∧
        withinEventBytes (encodedEventLen signedLen groups) = true ∧ b = fieldsOut p := by
  simp only [readEvent, bind_ok_iff, Prod.exists, readHeader_ok_iff, pure_ok_iff, Prod.mk.injEq,
    readBody_ok_iff]
  constructor
  · rintro ⟨_, header, _, ⟨hp, rfl⟩, rfl, hh, hb, rfl⟩
    refine ⟨header.groups, ⟨?_, hh.signerGroups, hp.indices⟩, hb, ?_, ?_⟩
    · rw [EventPreimage.signerGroupRoles, hh.kind, hh.standingRoot]
      exact hp.roles
    · rw [← hp.encodedLen]
      exact hp.within
    · simp only [fieldsOut, leadingOut, EventHeader.out, hh.kind, hh.identifier, hh.sequence,
        hh.predecessorDigest, hh.standingRoot, hh.signerGroups, List.append_assoc]
  · rintro ⟨groups, hh, hb, hw, rfl⟩
    let header : EventHeader := ⟨p.kind, p.identifier, p.sequence, p.predecessorDigest,
      p.standingRoot, groups, encodedEventLen signedLen groups⟩
    refine ⟨header, header, bodyOut p, ⟨⟨hh.roles, hh.indices, rfl, hw⟩, ?_⟩, rfl,
      ⟨rfl, rfl, rfl, rfl, rfl, hh.signerGroups⟩, hb, rfl⟩
    rw [fieldsOut, hh.signerGroups]
    rfl

/-- No field byte string begins with the separator. -/
theorem separator_not_fieldsOut (p : EventPreimage) :
    kelEventSeparator.isPrefixOf (fieldsOut p) = false := by
  simp only [fieldsOut, leadingOut, kelEventSeparator, List.append_assoc, List.cons_append, List.isPrefixOf_cons_cons]
  cases p.kind <;> rfl

theorem decodePreimage_ok_iff (b : Bytes) (e : EncodedPreimage) :
    decodePreimage b = .ok e ↔ PreimageOk e.preimage ∧ b = fieldsOut e.preimage ∧ e.fields = b := by
  have hevent := readEvent_ok_iff b (signedLenOf b) e.preimage
  simp only [decodePreimage, bind_ok_iff, exists_unit_iff, require_ok_iff, Prod.exists,
    mapError_ok_iff, pure_ok_iff, PreimageOk]
  constructor
  · rintro ⟨_, header, _, hr, p, rfl, rfl⟩
    obtain ⟨groups, hh, hb, hw, hf⟩ := hevent.mp ⟨header, hr⟩
    rw [hf] at hw
    exact ⟨⟨groups, hh, hb, hw⟩, hf, rfl⟩
  · rintro ⟨⟨groups, hh, hb, hw⟩, hf, he⟩
    rw [← hf] at hw
    obtain ⟨header, hr⟩ := hevent.mpr ⟨groups, hh, hb, hw, hf⟩
    refine ⟨?_, header, _, hr, e.preimage, rfl, ?_⟩
    · rw [hf, separator_not_fieldsOut]
      rfl
    · rw [← he]

/-- The codec is a bijection between the preimages it encodes and the byte
strings it decodes, and it refuses only preimages no byte string decodes to. -/
theorem preimage_codec_bijective :
    (∀ p e, encodePreimage p = .ok e → decodePreimage e.fields = .ok ⟨p, e.fields⟩) ∧
    (∀ b e, decodePreimage b = .ok e →
      ∃ e2, encodePreimage e.preimage = .ok e2 ∧ e2.fields = b) ∧
    ∀ p err, encodePreimage p = .error err → ∀ b e, decodePreimage b = .ok e → e.preimage ≠ p := by
  have hdecoded : ∀ b e, decodePreimage b = .ok e →
      ∃ e2, encodePreimage e.preimage = .ok e2 ∧ e2.fields = b := by
    intro b e h
    obtain ⟨hok, hb, _⟩ := (decodePreimage_ok_iff b e).mp h
    exact ⟨_, (encodePreimage_ok_iff e.preimage _).mpr ⟨hok, rfl⟩, hb.symm⟩
  refine ⟨?_, hdecoded, ?_⟩
  · intro p e h
    obtain ⟨hok, rfl⟩ := (encodePreimage_ok_iff p e).mp h
    exact (decodePreimage_ok_iff _ _).mpr ⟨hok, rfl, rfl⟩
  · rintro p err herr b e h rfl
    obtain ⟨e2, he2, _⟩ := hdecoded b e h
    rw [herr] at he2
    cases he2

/-- A key-state change with one signer, a key and a seal. -/
def samplePlain : EventPreimage where
  kind := .keyState
  identifier := 5
  sequence := 1
  predecessorDigest := 6
  standingRoot := none
  signerGroups := [⟨[0], [.raw]⟩]
  revealedKeys := []
  installedRootSet := none
  keyState := some ⟨1, [⟨2, .active, .current, 0, .passkey, .ecdsaP256Sha256⟩], [], 300, .active, 0⟩
  seals := [9]
  continuation := none

/-- The preimage reads back from its fields, and without its signer group it is refused. -/
theorem preimage_codec_bijective_sample :
    encodePreimage samplePlain = .ok ⟨samplePlain, fieldsOut samplePlain⟩ ∧
    decodePreimage (fieldsOut samplePlain) = .ok ⟨samplePlain, fieldsOut samplePlain⟩ ∧
    (∃ e, encodePreimage samplePlain = .ok e ∧ e.fields = fieldsOut samplePlain) ∧
    samplePlain ≠ { samplePlain with signerGroups := [] } := by
  obtain ⟨hread, hwrite, hrefused⟩ := preimage_codec_bijective
  have hencode : encodePreimage samplePlain = .ok ⟨samplePlain, fieldsOut samplePlain⟩ := by
    decide +kernel
  have hdecode := hread _ _ hencode
  have hwritten := hwrite _ _ hdecode
  dsimp only at hdecode hwritten
  have herror : encodePreimage { samplePlain with signerGroups := [] } =
      .error (.signerGroupCount .keyState 1 0) := by
    decide +kernel
  have hother := hrefused _ _ herror _ _ hdecode
  exact ⟨hencode, hdecode, hwritten, hother⟩

end Whole

end ScpCore.Kel
