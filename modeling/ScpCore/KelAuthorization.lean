import ScpCore.Logged
import ScpCore.KelSignatures

/-! Acceptance is full authorization. The check order is run again with a log of the
calls to the verifier: across 7b and step 9 no index of a group is asked about twice,
and an accepted unit carries a verifying signature for every signer it names, under the
key set that the signer group's role assigns. -/

namespace ScpCore.Kel

/-- One call of the verifier, for a signer of a group of the unit. -/
structure Question where
  group : ℕ
  index : UInt8
  key : Key
  digest : Digest
  form : SignatureForm
  signature : IndexedSignature
  deriving DecidableEq

section Asking
variable (C : Crypto)

namespace GroupVerdicts
variable {ε : Type} (digest : Digest) (n : ℕ)

/-- `verdict`, with the call it makes where no step has verified the index. -/
def verdictAsking (g : GroupVerdicts) (index : UInt8) :
    Logged Question ε (Option (Except IndexedSignatureError Unit) × GroupVerdicts) :=
  match g.keys.keys.get index, g.first.get index with
  | some key, some (form, signature) =>
    match g.verdicts.get index with
    | some verdict => pure (some verdict, g)
    | none =>
      let verdict := C.verify key digest form signature
      .call ⟨n, index, key, digest, form, signature⟩
        (some verdict, { g with verdicts := g.verdicts.orInsert index verdict })
  | _, _ => pure (none, g)

def verifiedFromAsking : List UInt8 → ℕ → GroupVerdicts → Logged Question ε (Bool × GroupVerdicts)
  | [], count, g => pure (reaches count g.keys.threshold, g)
  | index :: rest, count, g => do
    if reaches count g.keys.threshold then pure (true, g)
    else
      match ← g.verdictAsking C digest n index with
      | (some (.ok ()), g) => verifiedFromAsking rest (count+1) g
      | (_, g) => verifiedFromAsking rest count g

def allVerifyFromAsking : List UInt8 → GroupVerdicts → Logged Question Unverified GroupVerdicts
  | [], g => pure g
  | index :: rest, g => do
    match ← g.verdictAsking C digest n index with
    | (some (.ok ()), g) => allVerifyFromAsking rest g
    | (some (.error error), _) => .silent (.error (.failed index error))
    | (none, _) => .silent (.error (.outsideKeySet index))

end GroupVerdicts

section Steps
variable {ε : Type} (digest : Digest)

/-- `verify_anchored` over the groups from position `n` on. -/
def verifyAnchoredAsking : ℕ → List (Option GroupVerdicts × Bool) →
    Logged Question ε (Option (List (Option GroupVerdicts)))
  | _, [] => pure none
  | n, (some group, true) :: rest => do
    match ← group.verifiedFromAsking C digest n group.order 0 with
    | (true, group) => pure (some (some group :: rest.map (·.1)))
    | (false, group) => do
      let out ← verifyAnchoredAsking (n+1) rest
      pure (out.map (some group :: ·))
  | n, (group, _) :: rest => do
    let out ← verifyAnchoredAsking (n+1) rest
    pure (out.map (group :: ·))

def verifiedCountAsking (read : ReadUnit) (keySets : List (Option KeySet)) (anchored : List Bool) :
    Logged Question EventDefect (List (Option GroupVerdicts)) := do
  let field ← .silent (read.signatureField.mapError .walk)
  let verdicts := ((read.header.groups.zip field.signatures).zip keySets).map
    (fun ((group, signatures), keys) => keys.map (groupVerdicts group signatures))
  let out ← verifyAnchoredAsking C digest 0 (verdicts.zip anchored)
  .silent (okOr out (.verifiedCountShort digest))

def verifyRestAsking (n : ℕ)
    (t : (Option GroupVerdicts × HeaderGroup × List NamedSignature) × KeySet) :
    Logged Question EventDefect GroupVerdicts :=
  let group := t.1.1.getD (groupVerdicts t.1.2.1 t.1.2.2 t.2)
  (group.allVerifyFromAsking C digest n group.order).mapError
    (fun
      | .failed index error => .signature digest t.1.2.1.role index error
      | .outsideKeySet index => .content digest (.indexOutOfRange t.1.2.1.role index))

def remainingAsking (read : ReadUnit) (verdicts : List (Option GroupVerdicts))
    (keySets : List KeySet) : Logged Question EventDefect (List GroupVerdicts) := do
  let field ← .silent (read.signatureField.mapError .walk)
  Logged.mapEachFrom (verifyRestAsking C digest) 0
    ((verdicts.zip (read.header.groups.zip field.signatures)).zip keySets)

def signaturesAsking (read : ReadUnit) (unitLen : ℕ) (keySets : List (Option KeySet))
    (content : Except EventDefect (Applied × EventPreimage)) :
    Logged Question EventDefect (Applied × EventPreimage) := do
  .silent (walk read unitLen)
  let anchored := namedCount read.header keySets
  .silent (require (anchored.any id) (.namedCountShort digest))
  let verdicts ← verifiedCountAsking C digest read keySets anchored
  let (applied, preimage) ← .silent content
  let _ ← remainingAsking C digest read verdicts applied.keySets
  pure (applied, preimage)

end Steps

/-- `check_inception` over a signed unit, with its calls of the verifier. -/
def checkInceptionAsking (bytes : Bytes) (served : Option Identifier) :
    Logged Question InceptionFailure Accepted := do
  match decode bytes .signed with
  | .unframed => .silent (throw (.discard .unframed))
  | .noSeparator => .silent (throw (.discard .noSeparator))
  | .headerFailed failed =>
    let _ ← .silent (bindInception C failed.fields served)
    .silent (throw (.invalid (.header failed.error)))
  | .read read =>
    let identifier ← .silent (bindInception C read.fields served)
    let digest := eventDigestOf C read.fields
    let preimage ← .silent (read.preimage.mapError (fun error => .invalid (.content (.body error))))
    let applied ← .silent ((checkContent C (.inception identifier) read.header preimage digest).mapError
      (fun defect => .invalid (.content defect)))
    let (applied, preimage) ← (signaturesAsking C digest read bytes.length (applied.keySets.map some)
      (.ok (applied, preimage))).mapError .discard
    pure (Accepted.new applied read.fields digest preimage bytes)

/-- `check_successor` over a signed unit, with its calls of the verifier. -/
def checkSuccessorAsking (chain : ValidatedChain) (bytes : Bytes) :
    Logged Question EventDefect Accepted := do
  match decode bytes .signed with
  | .unframed => .silent (throw .unframed)
  | .noSeparator => .silent (throw .noSeparator)
  | .headerFailed failed => .silent (throw (.header failed.error))
  | .read read =>
    let named := read.header.predecessorDigest
    .silent (require (named = chain.headDigest) (.predecessorMismatch named))
    let digest := eventDigestOf C read.fields
    let content := do
      let preimage ← read.preimage.mapError (fun error => .content digest (.body error))
      let applied ← (checkContent C (.next chain) read.header preimage digest).mapError
        (.content digest)
      pure (applied, preimage)
    let (applied, preimage) ← signaturesAsking C digest read bytes.length
      (anchoringKeySets C chain read) content
    pure (Accepted.new applied read.fields digest preimage bytes)

end Asking

section Erase
variable {C : Crypto} {ε : Type} {digest : Digest} {n : ℕ}

@[simp] theorem verdictAsking_result (g : GroupVerdicts) (index : UInt8) :
    (g.verdictAsking C digest n index : Logged Question ε _).result = .ok (g.verdict C digest index) := by
  unfold GroupVerdicts.verdictAsking GroupVerdicts.verdict
  cases g.keys.keys.get index with
  | none => rfl
  | some key =>
    cases g.first.get index with
    | none => rfl
    | some s =>
      obtain ⟨form, signature⟩ := s
      cases g.verdicts.get index with
      | none => rfl
      | some verdict => rfl

@[simp] theorem verifiedFromAsking_result (rest : List UInt8) (count : ℕ) (g : GroupVerdicts) :
    (g.verifiedFromAsking C digest n rest count : Logged Question ε _).result =
      .ok (GroupVerdicts.verifiedFrom C digest rest count g) := by
  induction rest generalizing count g with
  | nil => rfl
  | cons index rest ih =>
    unfold GroupVerdicts.verifiedFromAsking GroupVerdicts.verifiedFrom
    by_cases hreach : reaches count g.keys.threshold = true
    · rw [if_pos hreach, if_pos hreach]
      rfl
    · rw [if_neg hreach, if_neg hreach, Logged.result_bind, verdictAsking_result]
      rcases g.verdict C digest index with ⟨_ | _ | _, g'⟩
      · exact ih count g'
      · exact ih count g'
      · exact ih (count+1) g'

@[simp] theorem allVerifyFromAsking_result (rest : List UInt8) (g : GroupVerdicts) :
    (g.allVerifyFromAsking C digest n rest).result = GroupVerdicts.allVerifyFrom C digest rest g := by
  induction rest generalizing g with
  | nil => rfl
  | cons index rest ih =>
    unfold GroupVerdicts.allVerifyFromAsking GroupVerdicts.allVerifyFrom
    rw [Logged.result_bind, verdictAsking_result]
    rcases g.verdict C digest index with ⟨_ | _ | _, g'⟩
    · rfl
    · rfl
    · exact ih g'

@[simp] theorem verifyAnchoredAsking_result (n : ℕ) (slots : List (Option GroupVerdicts × Bool)) :
    (verifyAnchoredAsking C digest n slots : Logged Question ε _).result =
      .ok (verifyAnchored C digest slots) := by
  induction slots generalizing n with
  | nil => rfl
  | cons x rest ih =>
    obtain ⟨slot, flag⟩ := x
    cases slot with
    | none =>
      rw [verifyAnchoredAsking, Logged.result_bind, ih, verifyAnchored]
      · rfl
      · simp
      · simp
    | some g =>
      cases flag with
      | false =>
        rw [verifyAnchoredAsking, Logged.result_bind, ih, verifyAnchored]
        · rfl
        · simp
        · simp
      | true =>
        rw [verifyAnchoredAsking, Logged.result_bind, verifiedFromAsking_result, verifyAnchored,
          GroupVerdicts.verified]
        rcases GroupVerdicts.verifiedFrom C digest g.order 0 g with ⟨_ | _, g'⟩
        · change (verifyAnchoredAsking C digest (n+1) rest >>= _).result = _
          rw [Logged.result_bind, ih]
          rfl
        · rfl

@[simp] theorem verifiedCountAsking_result (read : ReadUnit) (keySets : List (Option KeySet))
    (anchored : List Bool) : (verifiedCountAsking C digest read keySets anchored).result =
      verifiedCount C read keySets anchored digest := by
  unfold verifiedCountAsking verifiedCount
  simp only [Logged.result_bind, Logged.result_silent, verifyAnchoredAsking_result]
  rfl

theorem mapEachFrom_result {α β : Type} {f : ℕ → α → Logged Question ε β} {g : α → Except ε β}
    (h : ∀ n a, (f n a).result = g a) (n : ℕ) (as : List α) :
    (Logged.mapEachFrom f n as).result = mapEach g as := by
  induction as generalizing n with
  | nil => rfl
  | cons a as ih =>
    simp only [Logged.mapEachFrom, mapEach, Logged.result_bind, h, ih, Logged.result_pure]
    rfl

@[simp] theorem verifyRestAsking_result (n : ℕ)
    (t : (Option GroupVerdicts × HeaderGroup × List NamedSignature) × KeySet) :
    (verifyRestAsking C digest n t).result = verifyRest C digest t := by
  unfold verifyRestAsking verifyRest GroupVerdicts.allVerify
  exact congrArg (Except.mapError _) (allVerifyFromAsking_result _ _)

@[simp] theorem remainingAsking_result (read : ReadUnit) (verdicts : List (Option GroupVerdicts))
    (keySets : List KeySet) : (remainingAsking C digest read verdicts keySets).result =
      remaining C read verdicts keySets digest := by
  unfold remainingAsking remaining
  rw [Logged.result_bind, Logged.result_silent]
  congr 1
  funext field
  exact mapEachFrom_result verifyRestAsking_result _ _

@[simp] theorem signaturesAsking_result (read : ReadUnit) (unitLen : ℕ)
    (keySets : List (Option KeySet)) (content : Except EventDefect (Applied × EventPreimage)) :
    (signaturesAsking C digest read unitLen keySets content).result =
      signatures C read unitLen .signed keySets digest content := by
  unfold signaturesAsking signatures
  simp only [Logged.result_bind, Logged.result_silent, verifiedCountAsking_result,
    remainingAsking_result, Logged.result_pure, if_true]
  rfl

/-- The check order with the log gives what it gives without. -/
theorem checkSuccessorAsking_result (chain : ValidatedChain) (bytes : Bytes) :
    (checkSuccessorAsking C chain bytes).result = checkSuccessor C chain bytes .signed := by
  unfold checkSuccessorAsking checkSuccessor
  cases decode bytes .signed with
  | unframed | noSeparator | headerFailed _ => rfl
  | read read =>
    simp only [Logged.result_bind, Logged.result_silent, signaturesAsking_result, Logged.result_pure]
    rfl

theorem checkInceptionAsking_result (bytes : Bytes) (served : Option Identifier) :
    (checkInceptionAsking C bytes served).result = checkInception C bytes served .signed := by
  unfold checkInceptionAsking checkInception
  cases decode bytes .signed with
  | unframed | noSeparator => rfl
  | headerFailed failed =>
    simp only [Logged.result_bind, Logged.result_silent]
  | read read =>
    simp only [Logged.result_bind, Logged.result_silent, signaturesAsking_result, Logged.result_pure,
      Logged.result_mapError]
    rfl

end Erase

section Asked
variable (C : Crypto) (digest : Digest) (n : ℕ)

/-- The question a signer's signature poses under its group's key set. -/
def questionOf (keys : KeySet) (s : Signer) : Question :=
  ⟨n, s.1, (keys.keys.get s.1).getD 0, digest, s.2.1, s.2.2⟩

/-- The signers of a group that have no verdict yet. -/
def GroupVerdicts.unasked (g : GroupVerdicts) (signers : List Signer) : List Signer :=
  signers.filter (fun s => (g.verdicts.get s.1).isNone)

variable {C digest n} {ε : Type} {keys : KeySet} {signers : List Signer} {g : GroupVerdicts}
  (hg : g.Of C digest keys signers) (hnames : Names keys signers)
include hg hnames

/-- A verdict asks only about a signer that had none, who then has one. -/
theorem GroupVerdicts.Of.asks {s : Signer} (hs : s ∈ signers) :
    ((g.verdictAsking C digest n s.1 : Logged Question ε _).log ++
      ((g.verdict C digest s.1).2.unasked signers).map (questionOf digest n keys)).Perm
        ((g.unasked signers).map (questionOf digest n keys)) := by
  obtain ⟨key, hkey⟩ := hnames.inSet s hs
  unfold GroupVerdicts.verdictAsking GroupVerdicts.verdict
  rw [hg.keys_eq, hkey, hg.first s hs]
  cases hv : g.verdicts.get s.1 with
  | some v => exact List.Perm.refl _
  | none =>
    have hunasked : s ∈ g.unasked signers := List.mem_filter.mpr ⟨hs, by simp [hv]⟩
    have hnodup : (g.unasked signers).Nodup := (List.Nodup.of_map _ hnames.nodup).filter _
    -- The open signers after the call are those before it, less this one.
    have hrest (g' : GroupVerdicts)
        (hg' : g'.verdicts = g.verdicts.orInsert s.1 (C.verify key digest s.2.1 s.2.2)) :
        g'.unasked signers = (g.unasked signers).erase s := by
      rw [hnodup.erase_eq_filter, GroupVerdicts.unasked, GroupVerdicts.unasked, List.filter_filter]
      apply List.filter_congr
      intro t ht
      rw [hg', OrderedMap.get_orInsert]
      by_cases he : t.1 = s.1
      · rw [List.inj_on_of_nodup_map hnames.nodup ht hs he]
        simp
      · have hne : t ≠ s := fun h => he (congrArg Prod.fst h)
        simp [he, hne]
    have hquestion : questionOf digest n keys s =
        ⟨n, s.1, key, digest, s.2.1, s.2.2⟩ := by
      simp [questionOf, hkey]
    dsimp only
    rw [hrest _ rfl]
    change ((⟨n, s.1, key, digest, s.2.1, s.2.2⟩ : Question) ::
      ((g.unasked signers).erase s).map (questionOf digest n keys)).Perm _
    rw [← hquestion, ← List.map_cons]
    exact (List.perm_cons_erase hunasked).symm.map _

theorem GroupVerdicts.Of.verifiedFrom_asks {rest : List Signer} (hrest : rest ⊆ signers) (count : ℕ) :
    ((g.verifiedFromAsking C digest n (rest.map Prod.fst) count : Logged Question ε _).log ++
      ((GroupVerdicts.verifiedFrom C digest (rest.map Prod.fst) count g).2.unasked signers).map
        (questionOf digest n keys)).Perm ((g.unasked signers).map (questionOf digest n keys)) := by
  induction rest generalizing count g with
  | nil => exact List.Perm.refl _
  | cons s rest ih =>
    rw [List.map_cons, GroupVerdicts.verifiedFromAsking, GroupVerdicts.verifiedFrom]
    by_cases hreach : reaches count g.keys.threshold = true
    · rw [if_pos hreach, if_pos hreach]
      exact List.Perm.refl _
    · have hs : s ∈ signers := hrest (by simp)
      have hsub : rest ⊆ signers := fun t ht => hrest (by simp [ht])
      obtain ⟨key, hkey⟩ := hnames.inSet s hs
      obtain ⟨g', hverdict, hg'⟩ := hg.verdict hnames hs hkey
      have hask := hg.asks hnames hs (n := n) (ε := ε)
      rw [if_neg hreach, if_neg hreach, Logged.log_bind_ok (verdictAsking_result g s.1)]
      rw [hverdict] at hask ⊢
      refine List.Perm.trans ?_ hask
      cases C.verify key digest s.2.1 s.2.2 with
      | ok u =>
        rw [List.append_assoc]
        exact (ih hg' hsub (count+1)).append_left _
      | error e =>
        rw [List.append_assoc]
        exact (ih hg' hsub count).append_left _

theorem GroupVerdicts.Of.allVerifyFrom_asks {rest : List Signer} (hrest : rest ⊆ signers)
    {g' : GroupVerdicts} (h : GroupVerdicts.allVerifyFrom C digest (rest.map Prod.fst) g = .ok g') :
    ((g.allVerifyFromAsking C digest n (rest.map Prod.fst)).log ++
      (g'.unasked signers).map (questionOf digest n keys)).Perm
        ((g.unasked signers).map (questionOf digest n keys)) := by
  induction rest generalizing g with
  | nil =>
    obtain rfl := Except.ok.inj h
    exact List.Perm.refl _
  | cons s rest ih =>
    have hs : s ∈ signers := hrest (by simp)
    have hsub : rest ⊆ signers := fun t ht => hrest (by simp [ht])
    obtain ⟨key, hkey⟩ := hnames.inSet s hs
    obtain ⟨g₁, hverdict, hg₁⟩ := hg.verdict hnames hs hkey
    have hask := hg.asks hnames hs (n := n) (ε := Unverified)
    rw [List.map_cons, GroupVerdicts.allVerifyFrom, hverdict] at h
    rw [List.map_cons, GroupVerdicts.allVerifyFromAsking,
      Logged.log_bind_ok (verdictAsking_result g s.1)]
    rw [hverdict] at hask ⊢
    refine List.Perm.trans ?_ hask
    cases hv : C.verify key digest s.2.1 s.2.2 with
    | ok u =>
      rw [hv] at h
      rw [List.append_assoc]
      exact (ih hg₁ hsub h).append_left _
    | error e =>
      rw [hv] at h
      cases h

end Asked

theorem perm_append_swap_left {α : Type} (xs ys zs : List α) :
    (xs ++ (ys ++ zs)).Perm (ys ++ (xs ++ zs)) := by
  rw [← List.append_assoc, ← List.append_assoc]
  exact List.perm_append_comm.append_right zs

section Slots
variable (digest : Digest)

/-- Every question a group's signatures pose, one for each signer. -/
def Walked.questions (n : ℕ) (w : Walked) : List Question :=
  w.signers.map (questionOf digest n w.keys)

/-- The questions a slot has not asked: all of them where no group was built yet. -/
def Walked.pending (n : ℕ) (w : Walked) (slot : Option GroupVerdicts) : List Question :=
  slot.elim (w.questions digest n) (fun g => (g.unasked w.signers).map (questionOf digest n w.keys))

/-- The questions left over all slots from position `n` on. -/
def pendings : ℕ → List Walked → List (Option GroupVerdicts) → List Question
  | n, w :: ws, slot :: slots => w.pending digest n slot ++ pendings (n+1) ws slots
  | _, _, _ => []

/-- The questions of all groups from position `n` on. -/
def questionsFrom : ℕ → List Walked → List Question
  | _, [] => []
  | n, w :: ws => w.questions digest n ++ questionsFrom (n+1) ws

variable {C : Crypto} {digest} {n : ℕ} {ε : Type} {ws : List Walked}

/-- Sub-check 7b takes from the pending questions those it asks. -/
theorem verifyAnchored_asks {slots : List (Option GroupVerdicts × Bool)}
    (h : List.Forall₂ (Anchors C digest) ws slots) {out : List (Option GroupVerdicts)}
    (hout : verifyAnchored C digest slots = some out) :
    ((verifyAnchoredAsking C digest n slots : Logged Question ε _).log ++
      pendings digest n ws out).Perm (pendings digest n ws (slots.map (·.1))) := by
  induction h generalizing n out with
  | nil => cases hout
  | @cons w x ws slots hx hrest ih =>
    obtain ⟨slot, flag⟩ := x
    -- A slot that is passed over keeps its questions.
    have hskip (out' : List (Option GroupVerdicts)) (hout' : verifyAnchored C digest slots = some out') :
        ((verifyAnchoredAsking C digest (n+1) slots : Logged Question ε _).log ++
          pendings digest n (w :: ws) (slot :: out')).Perm
            (pendings digest n (w :: ws) (slot :: slots.map (·.1))) := by
      exact (perm_append_swap_left _ _ _).trans ((ih hout').append_left _)
    have hpass (hlog : (verifyAnchoredAsking C digest n ((slot, flag) :: slots) :
          Logged Question ε _).log =
          (verifyAnchoredAsking C digest (n+1) slots : Logged Question ε _).log)
        (hout : (verifyAnchored C digest slots).map (slot :: ·) = some out) :
        ((verifyAnchoredAsking C digest n ((slot, flag) :: slots) : Logged Question ε _).log ++
          pendings digest n (w :: ws) out).Perm
            (pendings digest n (w :: ws) (((slot, flag) :: slots).map (·.1))) := by
      obtain ⟨out', hout', rfl⟩ := Option.map_eq_some_iff.mp hout
      rw [hlog]
      exact hskip out' hout'
    cases slot with
    | none =>
      refine hpass ?_ (by simpa [verifyAnchored] using hout)
      rw [verifyAnchoredAsking, Logged.log_bind_ok (verifyAnchoredAsking_result _ slots)]
      · exact List.append_nil _
      · simp
    | some g =>
      cases flag with
      | false =>
        refine hpass ?_ (by simpa [verifyAnchored] using hout)
        rw [verifyAnchoredAsking, Logged.log_bind_ok (verifyAnchoredAsking_result _ slots)]
        · exact List.append_nil _
        · simp
      | true =>
        have hg := hx.slot g rfl
        have hask := hg.verifiedFrom_asks hx.passes.names (List.Subset.refl _) 0 (n := n) (ε := ε)
        rw [← hg.order_eq] at hask
        rw [verifyAnchoredAsking, Logged.log_bind_ok (verifiedFromAsking_result _ _ _)]
        rw [verifyAnchored, GroupVerdicts.verified] at hout
        rcases hrun : GroupVerdicts.verifiedFrom C digest g.order 0 g with ⟨b, g'⟩
        rw [hrun] at hout hask
        cases b with
        | true =>
          rw [← Option.some.inj hout]
          have hmore := hask.append_right (pendings digest (n+1) ws (slots.map (·.1)))
          rw [List.append_assoc] at hmore
          refine List.Perm.trans ?_ hmore
          exact List.Perm.of_eq (congrArg (· ++ _) (List.append_nil _))
        | false =>
          obtain ⟨out', hout', rfl⟩ := Option.map_eq_some_iff.mp hout
          have hlog : ((verifyAnchoredAsking C digest (n+1) slots : Logged Question ε _) >>= fun out =>
              pure (out.map (some g' :: ·))).log =
              (verifyAnchoredAsking C digest (n+1) slots : Logged Question ε _).log := by
            rw [Logged.log_bind_ok (verifyAnchoredAsking_result _ slots)]
            exact List.append_nil _
          change ((_ ++ ((verifyAnchoredAsking C digest (n+1) slots : Logged Question ε _) >>= fun out =>
            pure (out.map (some g' :: ·))).log) ++ (_ ++ pendings digest (n+1) ws out')).Perm
              (_ ++ pendings digest (n+1) ws (slots.map (·.1)))
          rw [hlog, List.append_assoc]
          refine List.Perm.trans ?_ (hask.append (ih hout'))
          rw [List.append_assoc]
          exact (perm_append_swap_left _ _ _).append_left _

/-- A group just built has asked nothing. -/
theorem Walked.pending_new {w : Walked} (hw : w.Passes) :
    w.pending digest n (some (groupVerdicts w.group w.signed w.keys)) = w.questions digest n := by
  have hnone : (groupVerdicts w.group w.signed w.keys).verdicts = [] :=
    (GroupVerdicts.foldl_new w.signers ⟨w.keys, [], [], []⟩ hw.names.nodup (by simp) _ rfl).2.2.1
  have hall : (groupVerdicts w.group w.signed w.keys).unasked w.signers = w.signers := by
    rw [GroupVerdicts.unasked, hnone]
    exact List.filter_eq_self.mpr (fun _ _ => rfl)
  change ((groupVerdicts w.group w.signed w.keys).unasked w.signers).map _ = _
  rw [hall]
  rfl

/-- Step 9 asks only what is pending. -/
theorem verifyRest_asks {w : Walked} {slot : Option GroupVerdicts} (hw : w.Passes)
    (hslot : SlotOf C digest w slot) {g' : GroupVerdicts}
    (h : verifyRest C digest ((slot, w.group, w.signed), w.keys) = .ok g') :
    ((verifyRestAsking C digest n ((slot, w.group, w.signed), w.keys)).log).Subperm
      (w.pending digest n slot) := by
  have hg : (slot.getD (groupVerdicts w.group w.signed w.keys)).Of C digest w.keys w.signers := by
    cases slot with
    | none => exact GroupVerdicts.of_new hw.names.nodup
    | some g => exact hslot g rfl
  have hpending : w.pending digest n slot = ((slot.getD (groupVerdicts w.group w.signed
      w.keys)).unasked w.signers).map (questionOf digest n w.keys) := by
    cases slot with
    | some g => rfl
    | none => exact (Walked.pending_new hw).symm
  unfold verifyRest GroupVerdicts.allVerify at h
  rw [mapError_ok_iff, hg.order_eq] at h
  have hask := hg.allVerifyFrom_asks hw.names (List.Subset.refl _) h (n := n)
  rw [hpending]
  change ((GroupVerdicts.allVerifyFromAsking C digest n
    (slot.getD (groupVerdicts w.group w.signed w.keys)).order _).log).Subperm _
  rw [hg.order_eq]
  exact (List.sublist_append_left _ _).subperm.trans hask.subperm

theorem mapEach_verifyRest_asks (groups : List HeaderGroup) (signed : List (List NamedSignature))
    (keySets : List KeySet) (slots : List (Option GroupVerdicts))
    (h : List.Forall₂ (SlotOf C digest) (walkedGroups groups signed keySets) slots)
    (hpasses : ∀ w ∈ walkedGroups groups signed keySets, w.Passes) {out : List GroupVerdicts}
    (hout : mapEach (verifyRest C digest) ((slots.zip (groups.zip signed)).zip keySets) = .ok out) :
    ((Logged.mapEachFrom (verifyRestAsking C digest) n
      ((slots.zip (groups.zip signed)).zip keySets)).log).Subperm
        (pendings digest n (walkedGroups groups signed keySets) slots) := by
  induction groups generalizing n signed keySets slots out with
  | nil =>
    rw [List.zip_nil_left, List.zip_nil_right, List.zip_nil_left]
    exact List.nil_subperm
  | cons group groups ih =>
    cases signed with
    | nil =>
      rw [List.zip_nil_right, List.zip_nil_right, List.zip_nil_left]
      exact List.nil_subperm
    | cons s signed =>
      cases keySets with
      | nil =>
        rw [List.zip_nil_right]
        exact List.nil_subperm
      | cons keys keySets =>
        cases h with
        | @cons _ slot _ slots hslot hrest =>
          have hws : walkedGroups (group :: groups) (s :: signed) (keys :: keySets) =
              ⟨group, s, keys⟩ :: walkedGroups groups signed keySets := rfl
          rw [hws] at hpasses ⊢
          obtain ⟨hpass, hpasses⟩ := List.forall_mem_cons.mp hpasses
          rw [List.zip_cons_cons, List.zip_cons_cons, List.zip_cons_cons, mapEach] at hout
          simp only [bind_ok_iff, pure_ok_iff] at hout
          obtain ⟨g, hg, gs, hgs, -⟩ := hout
          rw [List.zip_cons_cons, List.zip_cons_cons, List.zip_cons_cons, Logged.mapEachFrom,
            Logged.log_bind_ok ((verifyRestAsking_result _ _).trans hg),
            Logged.log_bind_ok ((mapEachFrom_result verifyRestAsking_result _ _).trans hgs)]
          have htail := ih signed keySets slots hrest hpasses hgs (n := n+1)
          refine (verifyRest_asks hpass hslot hg).append ?_
          exact (List.Perm.of_eq (List.append_nil _)).subperm.trans htail

/-- No two questions of a unit are for one index of one group. -/
theorem nodup_questionsFrom (h : ∀ w ∈ ws, w.Passes) : (questionsFrom digest n ws).Nodup := by
  induction ws generalizing n with
  | nil => exact List.nodup_nil
  | cons w ws ih =>
    obtain ⟨hw, hrest⟩ := List.forall_mem_cons.mp h
    have hlater : ∀ m, ∀ q ∈ questionsFrom digest m ws, m ≤ q.group := by
      clear ih hrest h
      induction ws with
      | nil => simp [questionsFrom]
      | cons v ws ih =>
        intro m q hq
        rcases List.mem_append.mp hq with hq | hq
        · obtain ⟨s, -, rfl⟩ := List.mem_map.mp hq
          exact le_rfl
        · exact Nat.le_of_succ_le (ih (m+1) q hq)
    refine List.Nodup.append ?_ (ih hrest) ?_
    · refine List.Nodup.of_map Question.index ?_
      rw [Walked.questions, List.map_map]
      exact hw.names.nodup
    · intro q hq hq'
      obtain ⟨s, -, rfl⟩ := List.mem_map.mp hq
      have hle : n+1 ≤ n := hlater (n+1) _ hq'
      omega

/-- Before sub-check 7b every question is pending. -/
theorem pendings_start {header : EventHeader} {signed : List (List NamedSignature)}
    {anchoring : List (Option KeySet)} {keySets : List KeySet}
    (hgroups : List.Forall₂ (fun group keys => GroupPasses keys group) header.groups keySets)
    (hsigned : List.Forall₂ (fun group s => s.length = group.signers.length) header.groups signed)
    (hagree : List.Forall₂ Agrees anchoring keySets) :
    pendings digest n (walkedGroups header.groups signed keySets)
      ((anchoredSlots header signed anchoring).map (·.1)) =
      questionsFrom digest n (walkedGroups header.groups signed keySets) := by
  unfold anchoredSlots namedCount
  generalize header.groups = groups at hgroups hsigned
  induction hgroups generalizing n signed anchoring with
  | nil => rfl
  | @cons group keys groups keySets hg _ ih =>
    cases hsigned with
    | @cons _ s _ signed hs hsigned =>
      cases hagree with
      | @cons slot _ anchoring _ hkeys hagree =>
        have hw : Walked.Passes ⟨group, s, keys⟩ := ⟨hg, hs⟩
        have hfirst : Walked.pending digest n ⟨group, s, keys⟩ (slot.map (groupVerdicts group s)) =
            Walked.questions digest n ⟨group, s, keys⟩ := by
          cases slot with
          | none => rfl
          | some keys' =>
            obtain rfl := hkeys keys' rfl
            exact Walked.pending_new hw
        change Walked.pending digest n ⟨group, s, keys⟩ (slot.map (groupVerdicts group s)) ++ _ =
          Walked.questions digest n ⟨group, s, keys⟩ ++ _
        rw [hfirst]
        exact congrArg (_ ++ ·) (ih hagree hsigned)

/-- A unit that passes the signature steps asked each question at most once. -/
theorem signatures_asks {read : ReadUnit} {unitLen : ℕ} {anchoring : List (Option KeySet)}
    {r : Applied × EventPreimage} {field : SignatureField}
    (hgroups : List.Forall₂ (fun group keys => GroupPasses keys group) read.header.groups r.1.keySets)
    (hfield : read.signatureField = .ok field)
    (hsigned : List.Forall₂ (fun group s => s.length = group.signers.length) read.header.groups
      field.signatures)
    (hagree : List.Forall₂ Agrees anchoring r.1.keySets)
    (h : signatures C read unitLen .signed anchoring digest (.ok r) = .ok r) :
    (signaturesAsking C digest read unitLen anchoring (.ok r)).log.Subperm
      (questionsFrom digest 0 (walkedGroups read.header.groups field.signatures r.1.keySets)) := by
  have hstart := anchors_start C digest hgroups hsigned hagree read.header rfl
  have hpasses := walkedGroups_passes hgroups hsigned
  obtain ⟨applied, preimage⟩ := r
  simp only [signatures, if_true, bind_ok_iff, exists_unit_iff, require_ok_iff, Prod.exists,
    pure_ok_iff] at h
  obtain ⟨hwalk, hnamed, verdicts, hcount, _, _, hr, out, hout, -⟩ := h
  obtain ⟨rfl, rfl⟩ := Prod.mk.inj (Except.ok.inj hr)
  rw [verifiedCount_eq hfield, okOr_ok_iff] at hcount
  rw [remaining_eq hfield] at hout
  -- What 7b asked and what step 9 asked after it.
  have hseven := verifyAnchored_asks hstart hcount (n := 0) (ε := EventDefect)
  rw [pendings_start hgroups hsigned hagree] at hseven
  have hnine := mapEach_verifyRest_asks _ _ _ _ (verifyAnchored_slots hstart hcount) hpasses hout
    (n := 0)
  have hlog : (signaturesAsking C digest read unitLen anchoring (.ok (applied, preimage))).log =
      (verifyAnchoredAsking C digest 0 (anchoredSlots read.header field.signatures anchoring) :
        Logged Question EventDefect _).log ++
      (Logged.mapEachFrom (verifyRestAsking C digest) 0 ((verdicts.zip (read.header.groups.zip
        field.signatures)).zip applied.keySets)).log := by
    have hcount' : (verifiedCountAsking C digest read anchoring (namedCount read.header anchoring)).log =
        (verifyAnchoredAsking C digest 0 (anchoredSlots read.header field.signatures anchoring) :
          Logged Question EventDefect _).log := by
      unfold verifiedCountAsking
      rw [hfield, Logged.log_bind_ok (a := field) rfl, Logged.log_bind_ok (verifyAnchoredAsking_result _ _)]
      exact List.append_nil _
    have hrest' : (remainingAsking C digest read verdicts applied.keySets).log =
        (Logged.mapEachFrom (verifyRestAsking C digest) 0 ((verdicts.zip (read.header.groups.zip
          field.signatures)).zip applied.keySets)).log := by
      unfold remainingAsking
      rw [hfield, Logged.log_bind_ok (a := field) rfl]
      rfl
    have hrequire : (Logged.silent (require ((namedCount read.header anchoring).any id)
        (EventDefect.namedCountShort digest)) : Logged Question EventDefect Unit).result = .ok () := by
      rw [Logged.result_silent, require_ok_iff]
      exact hnamed
    have hverdicts : (verifiedCountAsking C digest read anchoring
        (namedCount read.header anchoring)).result = .ok verdicts := by
      rw [verifiedCountAsking_result, verifiedCount_eq hfield, okOr_ok_iff]
      exact hcount
    have hpassed : (remainingAsking C digest read verdicts applied.keySets).result = .ok out := by
      rw [remainingAsking_result, remaining_eq hfield]
      exact hout
    unfold signaturesAsking
    rw [Logged.log_bind_ok (a := ()) hwalk, Logged.log_bind_ok hrequire, Logged.log_bind_ok hverdicts,
      Logged.log_bind_ok (a := (applied, preimage)) rfl, Logged.log_bind_ok hpassed, hcount', hrest']
    simp [Logged.silent, pure]
  rw [hlog]
  exact ((List.Subperm.refl _).append hnine).trans hseven.subperm

end Slots

/-- A key set is a root set: its members by index, at its threshold. -/
def IsRootSet (root : InstalledRootSet) (keys : KeySet) : Prop :=
  keys.threshold = root.threshold.toNat ∧
    ∀ index : UInt8, keys.keys.get index = root.members[index.toNat]?

/-- The key set that a group's role assigns to it: the root standing at the predecessor,
the keys revealed from the commitment standing there, or the root the event installs,
which the root group of an inception verifies against as well. -/
def AssignedTo (C : Crypto) (standing : Option ChainEvent) (preimage : EventPreimage)
    (group : HeaderGroup) (keys : KeySet) : Prop :=
  match group.role with
  | .root => ∃ root ∈ (standing.map (·.root)).or preimage.installedRootSet, IsRootSet root keys
  | .standingRoot => ∃ head ∈ standing, IsRootSet head.root keys
  | .reveal => ∃ head ∈ standing, ∃ commitment, head.commitment = .fixed commitment ∧
      keys.threshold = commitment.nextThreshold.toNat ∧
      group.signers.length = preimage.revealedKeys.length ∧
      ∀ t ∈ group.signers.zip preimage.revealedKeys, keys.keys.get t.1.index = some t.2 ∧
        ∃ entry, commitment.commitments[t.1.index.toNat]? = some entry ∧
          entry.commitment = prerotationCommitment C t.2
  | .replacementRoot => ∃ root ∈ preimage.installedRootSet, IsRootSet root keys

theorem rootKeySet_isRootSet (root : InstalledRootSet) : IsRootSet root (rootKeySet root) := by
  refine ⟨rfl, ?_⟩
  intro index
  -- The members from position `n` on answer for the indices from `n` on.
  have hfrom (members : List Key) (n : ℕ) :
      OrderedMap.get ((members.zipIdx n).filterMap (fun t =>
        if t.2 < 256 then some (UInt8.ofNat t.2, t.1) else none)) index =
        if n ≤ index.toNat then members[index.toNat-n]? else none := by
    induction members generalizing n with
    | nil => simp [OrderedMap.get]
    | cons key members ih =>
      have hlt := index.toNat_lt
      rw [List.zipIdx_cons, List.filterMap_cons]
      by_cases hn : n < 256
      · have heq : UInt8.ofNat n = index ↔ n = index.toNat := by
          rw [← UInt8.toNat_inj, UInt8.toNat_ofNat_of_lt' (by simpa using hn)]
        simp only [hn, if_true]
        by_cases hi : n = index.toNat
        · simp [OrderedMap.get, hi]
        · have hskip : OrderedMap.get ((UInt8.ofNat n, key) :: (members.zipIdx (n+1)).filterMap
              (fun t => if t.2 < 256 then some (UInt8.ofNat t.2, t.1) else none)) index =
              OrderedMap.get ((members.zipIdx (n+1)).filterMap
                (fun t => if t.2 < 256 then some (UInt8.ofNat t.2, t.1) else none)) index := by
            simp [OrderedMap.get, heq, hi]
          rw [hskip, ih (n+1)]
          by_cases hle : n ≤ index.toNat
          · have hsub : index.toNat - n = (index.toNat - (n+1)) + 1 := by omega
            rw [if_pos (by omega), if_pos hle, hsub, List.getElem?_cons_succ]
          · rw [if_neg (by omega), if_neg hle]
      · simp only [hn, if_false]
        rw [ih (n+1), if_neg (by omega), if_neg (by omega)]
  have hzero := hfrom root.members 0
  rw [if_pos (Nat.zero_le _), Nat.sub_zero] at hzero
  exact hzero

theorem revealKeySet_get {C : Crypto} {commitment : FixedCommitment} {group : HeaderGroup}
    {revealedKeys : List Key} {keys : KeySet} (hnodup : (group.signers.map (·.index)).Nodup)
    (hlen : group.signers.length = revealedKeys.length)
    (h : revealKeySet C (.fixed commitment) group revealedKeys = some keys)
    (hmatch : ∀ t ∈ group.signers.zip revealedKeys,
      (commitment.commitments[t.1.index.toNat]?).any
        (fun entry => entry.commitment = prerotationCommitment C t.2) = true) :
    keys.threshold = commitment.nextThreshold.toNat ∧
      ∀ t ∈ group.signers.zip revealedKeys, keys.keys.get t.1.index = some t.2 := by
  let value (t : NamedSigner × Key) : Option Key :=
    (commitment.commitments[t.1.index.toNat]?.filter
      (fun entry => entry.commitment = prerotationCommitment C t.2)).map (fun _ => t.2)
  let entries : OrderedMap UInt8 (Option Key) :=
    (group.signers.zip revealedKeys).map (fun t => (t.1.index, value t))
  -- The first of two entries with one index would be kept, but the indices are distinct.
  have hfirst : keys.keys = (OrderedMap.orInsertAll [] entries).filterMap
      (fun e => e.2.map (fun key => (e.1, key))) := by
    rw [← Option.some.inj h, OrderedMap.orInsertAll, List.foldl_map]
  have hentries : (entries.map Prod.fst).Nodup := by
    have hindices : entries.map Prod.fst = group.signers.map (·.index) := by
      calc entries.map Prod.fst
          = ((group.signers.zip revealedKeys).map Prod.fst).map (·.index) := by simp [entries]
        _ = group.signers.map (·.index) := by rw [List.map_fst_zip (le_of_eq hlen)]
    rwa [hindices]
  refine ⟨by rw [← Option.some.inj h], ?_⟩
  intro t ht
  have hvalue : value t = some t.2 := by
    have hany := hmatch t ht
    obtain ⟨entry, hentry, heq⟩ := (Option.any_eq_true _ _).mp hany
    simp only [value]
    rw [hentry, Option.filter_some, if_pos heq]
    rfl
  have hmem : (t.1.index, some t.2) ∈ OrderedMap.orInsertAll [] entries := by
    have hentry : (t.1.index, some t.2) ∈ entries := List.mem_map.mpr ⟨t, ht, by rw [hvalue]⟩
    have hget : (OrderedMap.orInsertAll [] entries).get t.1.index = some (some t.2) := by
      rw [OrderedMap.get_orInsertAll]
      exact OrderedMap.get_of_mem hentries hentry
    obtain ⟨e, hfind, he⟩ := Option.map_eq_some_iff.mp hget
    have hindex : e.1 = t.1.index := by simpa using List.find?_some hfind
    rw [← hindex, ← he]
    exact List.mem_of_find?_eq_some hfind
  have hmem' : (t.1.index, t.2) ∈ keys.keys := by
    rw [hfirst]
    exact List.mem_filterMap.mpr ⟨_, hmem, rfl⟩
  apply OrderedMap.get_of_mem _ hmem'
  have hkeys := OrderedMap.nodup_keys_orInsertAll [] entries (by simp)
  rw [List.Nodup, List.pairwise_map] at hkeys
  rw [hfirst, List.Nodup, List.pairwise_map, List.pairwise_filterMap]
  refine hkeys.imp ?_
  intro e f hne a ha b hb hab
  obtain ⟨_, -, rfl⟩ := Option.map_eq_some_iff.mp ha
  obtain ⟨_, -, rfl⟩ := Option.map_eq_some_iff.mp hb
  exact hne hab

theorem groupKeySet_assigned {C : Crypto} {position : Position} {preimage : EventPreimage}
    {group : HeaderGroup} {keys : KeySet} (hnodup : (group.signers.map (·.index)).Nodup)
    (h : groupKeySet C position preimage preimage.installedRootSet group = .ok keys) :
    AssignedTo C (position.chain?.map (·.head)) preimage group keys := by
  unfold AssignedTo
  -- One case per role: which keys a group answers for depends on the position it signs at.
  cases hrole : group.role with
  | root =>
    cases position with
    | inception identifier =>
      simp only [groupKeySet, hrole, bind_ok_iff, okOr_ok_iff, pure_ok_iff] at h
      obtain ⟨root, hroot, rfl⟩ := h
      exact ⟨root, by simpa [Position.chain?] using hroot, rootKeySet_isRootSet root⟩
    | next chain =>
      simp only [groupKeySet, hrole, Except.ok.injEq] at h
      exact ⟨chain.head.root, by simp [Position.chain?], h ▸ rootKeySet_isRootSet _⟩
  | standingRoot =>
    cases position with
    | inception identifier => simp [groupKeySet, hrole] at h
    | next chain =>
      simp only [groupKeySet, hrole, Except.ok.injEq] at h
      exact ⟨chain.head, rfl, h ▸ rootKeySet_isRootSet _⟩
  | replacementRoot =>
    simp only [groupKeySet, hrole, bind_ok_iff, okOr_ok_iff, pure_ok_iff] at h
    obtain ⟨root, hroot, rfl⟩ := h
    exact ⟨root, hroot, rootKeySet_isRootSet root⟩
  | reveal =>
    cases position with
    | inception identifier => simp [groupKeySet, hrole] at h
    | next chain =>
      cases hc : chain.head.commitment with
      | abandoned _ _ => simp [groupKeySet, hrole, hc] at h
      | fixed commitment =>
        simp only [groupKeySet, hrole, hc, bind_ok_iff, exists_unit_iff, okOr_ok_iff, checkReveal,
          require_ok_iff, decide_eq_true_eq, checkEach_ok_iff] at h
        obtain ⟨⟨hlen, hmatch⟩, hkeys⟩ := h
        obtain ⟨hthreshold, hget⟩ := revealKeySet_get hnodup hlen hkeys hmatch
        refine ⟨chain.head, rfl, commitment, hc, hthreshold, hlen, ?_⟩
        intro t ht
        refine ⟨hget t ht, ?_⟩
        simpa [Option.any_eq_true] using hmatch t ht

section Acceptance
variable (C : Crypto)

/-- Every signer a group names is a distinct member of its key set and has signed, and
the group reaches its threshold. -/
structure Authorized (digest : Digest) (w : Walked) : Prop where
  distinct : (w.group.signers.map (·.index)).Nodup
  threshold : w.keys.threshold ≤ w.group.signers.length
  length : w.signed.length = w.group.signers.length
  verified : ∀ t ∈ w.group.signers.zip w.signed, ∃ key, w.keys.keys.get t.1.index = some key ∧
    C.verify key digest t.1.form t.2.signature = .ok ()

/-- A unit is authorized in full: each group its kind requires is, under the key set its
role assigns, and the verifier was asked about each signer at most once. -/
def FullyAuthorized (standing : Option ChainEvent) (unit : Bytes) (accepted : Accepted)
    (asked : List Question) : Prop :=
  ∃ b field read preimage signed keySets, prefixedBytes unit 0 = some (b, field) ∧
    decodeCandidate b = .read read ∧ read.preimage = .ok preimage ∧ accepted.preimage = b ∧
    accepted.event.digest = C.sha256 b ∧ walkSignatureField read.header field = .ok (signed, []) ∧
    signerGroupRoles read.header.kind read.header.standingRoot = some (read.header.groups.map (·.role)) ∧
    (walkedGroups read.header.groups signed keySets).map (·.group) = read.header.groups ∧
    List.Forall₂ (AssignedTo C standing preimage) read.header.groups keySets ∧
    (∀ w ∈ walkedGroups read.header.groups signed keySets, Authorized C accepted.event.digest w) ∧
    asked.Subperm (questionsFrom accepted.event.digest 0
      (walkedGroups read.header.groups signed keySets)) ∧ asked.Nodup

variable {C}

theorem walkedGroups_group {groups : List HeaderGroup} {signed : List (List NamedSignature)}
    {keySets : List KeySet} (hsigned : groups.length = signed.length)
    (hkeys : groups.length = keySets.length) :
    (walkedGroups groups signed keySets).map (·.group) = groups := by
  have hpair : (groups.zip signed).length ≤ keySets.length := by
    rw [List.length_zip]
    omega
  calc (walkedGroups groups signed keySets).map (·.group)
      = (((groups.zip signed).zip keySets).map Prod.fst).map Prod.fst := by
        simp [walkedGroups]
    _ = groups := by rw [List.map_fst_zip hpair, List.map_fst_zip (le_of_eq hsigned)]

/-- A unit that passes its content and its signature steps is authorized in full. -/
theorem fullyAuthorized_of_signatures {position : Position} {b field unit : Bytes} {read : ReadUnit}
    {preimage : EventPreimage} {applied : Applied} {anchoring : List (Option KeySet)}
    (hunit : prefixedBytes unit 0 = some (b, field)) (hdecoded : decodeCandidate b = .read read)
    (hbody : read.preimage = .ok preimage)
    (hcontent : checkContent C position read.header preimage (eventDigestOf C read.fields) = .ok applied)
    (hagree : List.Forall₂ Agrees anchoring applied.keySets)
    (h : signatures C (read.walking b field) unit.length .signed anchoring
      (eventDigestOf C read.fields) (.ok (applied, preimage)) = .ok (applied, preimage)) :
    FullyAuthorized C (position.chain?.map (·.head)) unit
      (Accepted.new applied read.fields (eventDigestOf C read.fields) preimage unit)
      (signaturesAsking C (eventDigestOf C read.fields) (read.walking b field) unit.length anchoring
        (.ok (applied, preimage))).log := by
  have hpassed := checkContent_passed C hcontent
  have hgroups := checkGroups_passes hpassed.groups
  have hpasses := hgroups.imp (fun _ _ hg => hg.1)
  have hsigned : ∀ walked, (read.walking b field).signatureField = .ok walked → List.Forall₂
      (fun group s => s.length = group.signers.length) read.header.groups walked.signatures := by
    intro walked hwalked
    obtain ⟨signed, rest, hwalk, rfl⟩ := walking_signatureField.mp hwalked
    exact (walkSignatureField_ok hwalk).2
  have hnamed : (namedCount (read.walking b field).header anchoring).any id = true := by
    simp only [signatures, if_true, bind_ok_iff, exists_unit_iff, require_ok_iff] at h
    exact h.2.1
  -- The check succeeded, so every named signature verified.
  obtain ⟨signed, hwalk, hall⟩ : SignedBy C read.header (eventDigestOf C read.fields) applied.keySets
      field := by
    rw [← fullySigned_iff hunit]
    rcases signatures_signed_cases C (read.walking b field) unit.length (eventDigestOf C read.fields)
      (r := (applied, preimage)) hpasses hsigned hagree hnamed with ⟨hf, -⟩ | ⟨-, e, herr, -⟩
    · exact hf
    · rw [h] at herr
      cases herr
  have hfield := (walking_signatureField (b := b)).mpr ⟨signed, [], hwalk, rfl⟩
  have hlengths := (walkSignatureField_ok hwalk).2
  obtain ⟨hprefixed, hevent⟩ := decodePrefixed_eq_read hdecoded
  have hroles : signerGroupRoles read.header.kind read.header.standingRoot =
      some (read.header.groups.map (·.role)) := by
    simp only [readEvent, bind_ok_iff, Prod.exists, pure_ok_iff, Prod.mk.injEq] at hevent
    obtain ⟨header, rest, hheader, rfl, -⟩ := hevent
    exact ((readHeader_ok_iff _ _ _ _).mp hheader).1.roles
  have hasks := signatures_asks hpasses hfield hlengths hagree h
  refine ⟨b, field, read, preimage, signed, applied.keySets, hunit, hdecoded, hbody, ?_, ?_, hwalk,
    hroles, walkedGroups_group hlengths.length_eq hpasses.length_eq, ?_, ?_, ?_, ?_⟩
  · exact hprefixed.symm
  · rw [hprefixed]
    rfl
  · exact hgroups.imp (fun _ _ hg => groupKeySet_assigned hg.1.nodup hg.2)
  · intro w hw
    have hwp := walkedGroups_passes hpasses hlengths w hw
    refine ⟨hwp.group.nodup, hwp.group.threshold, hwp.length, ?_⟩
    intro t ht
    exact hall w hw _ (List.mem_map.mpr ⟨t, ht, rfl⟩)
  · exact hasks
  · obtain ⟨asked, hperm, hsub⟩ := hasks
    refine hperm.nodup_iff.mp (hsub.nodup ?_)
    exact nodup_questionsFrom (walkedGroups_passes hpasses hlengths)

theorem framed_of_ok {unit : Bytes} (h : decode unit .signed ≠ .unframed) :
    ∃ b field, prefixedBytes unit 0 = some (b, field) := by
  cases hframe : prefixedBytes unit 0 with
  | none =>
    refine absurd ?_ h
    unfold decode decodeEvent
    rw [hframe]
  | some x => exact ⟨x.1, x.2, rfl⟩

theorem checkSuccessor_authorized {chain : ValidatedChain} {unit : Bytes} {a : Accepted}
    (h : checkSuccessor C chain unit .signed = .ok a) :
    FullyAuthorized C (some chain.head) unit a (checkSuccessorAsking C chain unit).log := by
  have hframed : decode unit .signed ≠ .unframed := by
    intro hd
    unfold checkSuccessor at h
    rw [hd] at h
    cases h
  obtain ⟨b, field, hunit⟩ := framed_of_ok hframed
  unfold checkSuccessor at h
  split at h
  case h_4 copy hcopy =>
    obtain ⟨read, hdecoded, rfl⟩ := (decode_signed_iff hunit).mp hcopy
    simp only [bind_ok_iff, exists_unit_iff, Prod.exists, pure_ok_iff] at h
    obtain ⟨hpred, _, _, hsig, rfl⟩ := h
    have hblock := signatures_ok C hsig
    rw [hblock] at hsig
    have hpassed := hblock
    simp only [bind_ok_iff, mapError_ok_iff, pure_ok_iff, Prod.mk.injEq] at hpassed
    obtain ⟨preimage, hbody, applied, hcontent, rfl, rfl⟩ := hpassed
    have hevent := (decodePrefixed_read_iff.mp hdecoded).2.1
    rw [show read.preimage = _ from hbody] at hevent
    have hagree := anchoringKeySets_agrees hevent (checkContent_passed C hcontent).groups
    have hauth := fullyAuthorized_of_signatures hunit hdecoded hbody hcontent hagree hsig
    have hlog : (checkSuccessorAsking C chain unit).log =
        (signaturesAsking C (eventDigestOf C read.fields) (read.walking b field) unit.length
          (anchoringKeySets C chain read) (.ok (applied, preimage))).log := by
      unfold checkSuccessorAsking
      rw [hcopy]
      dsimp only
      rw [Logged.log_bind_ok (a := ()) hpred, hblock,
        Logged.log_bind_ok ((signaturesAsking_result _ _ _ _).trans hsig)]
      exact List.append_nil _
    rw [hlog]
    exact hauth
  all_goals simp at h

theorem checkInception_authorized {unit : Bytes} {served : Option Identifier} {a : Accepted}
    (h : checkInception C unit served .signed = .ok a) :
    FullyAuthorized C none unit a (checkInceptionAsking C unit served).log := by
  have hframed : decode unit .signed ≠ .unframed := by
    intro hd
    unfold checkInception at h
    rw [hd] at h
    cases h
  obtain ⟨b, field, hunit⟩ := framed_of_ok hframed
  unfold checkInception at h
  split at h
  case h_4 copy hcopy =>
    obtain ⟨read, hdecoded, rfl⟩ := (decode_signed_iff hunit).mp hcopy
    simp only [bind_ok_iff, Prod.exists, mapError_ok_iff, pure_ok_iff] at h
    obtain ⟨identifier, hbind, preimage, hbody, applied, hcontent, _, _, hsig, rfl⟩ := h
    have hsame := signatures_ok C hsig
    obtain ⟨rfl, rfl⟩ := Prod.mk.inj (Except.ok.inj hsame)
    have hagree : List.Forall₂ Agrees (applied.keySets.map some) applied.keySets := by
      rw [List.forall₂_map_left_iff, List.forall₂_same]
      intro keys _ keys' hkeys'
      exact (Option.some.inj hkeys').symm
    have hauth := fullyAuthorized_of_signatures hunit hdecoded hbody hcontent hagree hsig
    have hlog : (checkInceptionAsking C unit served).log =
        (signaturesAsking C (eventDigestOf C read.fields) (read.walking b field) unit.length
          (applied.keySets.map some) (.ok (applied, preimage))).log := by
      have hdone : ((signaturesAsking C (eventDigestOf C (read.walking b field).fields)
          (read.walking b field) unit.length (applied.keySets.map some) (.ok (applied, preimage))).mapError
            InceptionFailure.discard).result = .ok (applied, preimage) := by
        rw [Logged.result_mapError, signaturesAsking_result, mapError_ok_iff]
        exact hsig
      unfold checkInceptionAsking
      rw [hcopy]
      dsimp only
      rw [Logged.log_bind_ok hbind, hbody, Logged.log_bind_ok (a := preimage) rfl, hcontent,
        Logged.log_bind_ok (a := applied) rfl, Logged.log_bind_ok hdone]
      exact List.append_nil _
    rw [hlog]
    exact hauth
  all_goals simp at h

/-- Acceptance implies full authorization, past the inception and at it. -/
theorem accepted_fully_authorized (C : Crypto) :
    (∀ chain unit a, checkSuccessor C chain unit .signed = .ok a →
      (checkSuccessorAsking C chain unit).result = .ok a ∧
        FullyAuthorized C (some chain.head) unit a (checkSuccessorAsking C chain unit).log) ∧
    ∀ unit served a, checkInception C unit served .signed = .ok a →
      (checkInceptionAsking C unit served).result = .ok a ∧
        FullyAuthorized C none unit a (checkInceptionAsking C unit served).log := by
  constructor
  · intro chain unit a h
    exact ⟨(checkSuccessorAsking_result chain unit).trans h, checkSuccessor_authorized h⟩
  · intro unit served a h
    exact ⟨(checkInceptionAsking_result unit served).trans h, checkInception_authorized h⟩

theorem accepted_fully_authorized_sample :
    FullyAuthorized sampleCrypto (some sampleChain.head) (sampleUnit (sampleRecovery 4 5) 3)
        sampleRecovered
        (checkSuccessorAsking sampleCrypto sampleChain (sampleUnit (sampleRecovery 4 5) 3)).log ∧
      FullyAuthorized sampleCrypto none (sampleUnit sampleInception 1) sampleAccepted
        (checkInceptionAsking sampleCrypto (sampleUnit sampleInception 1) (some sampleIdentifier)).log :=
  ⟨((accepted_fully_authorized sampleCrypto).1 _ _ _ (eq_okGet _ _)).2,
    ((accepted_fully_authorized sampleCrypto).2 _ _ _ (eq_okGet _ _)).2⟩

/-- The replacement root signs under a key that is no member of the standing root, not
the active key and not revealed. -/
theorem accepted_under_installed_root :
    checkSuccessor sampleCrypto sampleChain (sampleUnit (sampleRecovery 4 5) 3) .signed =
        .ok sampleRecovered ∧
      ∃ spec ∈ sampleRecovered.signers, spec.role = .replacementRoot ∧
        ∃ named ∈ spec.keySet, named.index ∈ spec.indices ∧
          named.key ∉ sampleChain.head.root.members ∧ named.key ≠ sampleChain.head.resolved.active ∧
          named.key ∉ sampleRecovered.revealed :=
  ⟨eq_okGet _ _, by decide +kernel⟩

end Acceptance

end ScpCore.Kel
