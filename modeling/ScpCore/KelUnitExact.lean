import ScpCore.KelPreimageRoundTrip
import ScpCore.KelUnit

/-! Event units are self-delimiting. No length covers the signature field: it ends where the
walk of the signers the preimage names ends, so a unit reads the same whatever follows it, and
what was read writes the same bytes again. -/

namespace ScpCore.Kel

/-- An assertion-form signature from its parts, each within its bound. -/
def AssertionSignature.new (authenticatorData clientDataJson : Bytes) (signature : RawSignature) :
    Except IndexedSignatureReadError AssertionSignature := do
  checkAuthenticatorDataLength authenticatorData.length
  checkClientDataJsonLength clientDataJson.length
  pure ⟨authenticatorData, clientDataJson, signature⟩

/-- A part after its length as a `u32`. -/
def lengthedPart (part : Bytes) : Bytes := beBytes 4 (min part.length (2^32-1)) ++ part

def IndexedSignature.toBytes : IndexedSignature → Bytes
  | .raw signature => beBytes 64 signature.toNat
  | .webAuthnAssertion assertion =>
    lengthedPart assertion.authenticatorData ++ lengthedPart assertion.clientDataJson ++
      beBytes 64 assertion.signature.toNat

/-- A signature the code can build: an assertion's parts are within their bounds. -/
def IndexedSignature.Encodable : IndexedSignature → Prop
  | .raw _ => True
  | .webAuthnAssertion assertion => AssertionSignature.new assertion.authenticatorData
      assertion.clientDataJson assertion.signature = .ok assertion

/-- The signature field of the walked groups. -/
def signatureBytes (signed : List (List NamedSignature)) : Bytes :=
  signed.flatMap (fun group => group.flatMap (·.signature.toBytes))

/-- The unit of a signed preimage: its length, the preimage and the signature field. -/
def unitOf (fields : Bytes) (signed : List (List NamedSignature)) : Bytes :=
  beBytes 4 (signedLenOf fields) ++ (signedPreimageOf fields ++ signatureBytes signed)

/-- One signature for each named signer of a group, in the form declared for it. -/
structure Signs (group : SignerGroup) (signed : List NamedSignature) : Prop where
  indices : signed.map (·.index) = group.indices
  forms : signed.map (·.signature.form) = group.forms
  encodable : ∀ s ∈ signed, s.signature.Encodable

section Signature

theorem checkAuthenticatorDataLength_ok_iff {len : ℕ} {u : Unit} :
    checkAuthenticatorDataLength len = .ok u ↔
      minAuthenticatorDataBytes ≤ len ∧ len ≤ maxAuthenticatorDataBytes := by
  rw [checkAuthenticatorDataLength, require_ok_iff, Bool.and_eq_true, decide_eq_true_eq,
    decide_eq_true_eq]

theorem checkClientDataJsonLength_ok_iff {len : ℕ} {u : Unit} :
    checkClientDataJsonLength len = .ok u ↔ 1 ≤ len ∧ len ≤ maxClientDataJsonBytes := by
  rw [checkClientDataJsonLength, require_ok_iff, Bool.and_eq_true, decide_eq_true_eq,
    decide_eq_true_eq]

theorem assertion_encodable_iff {a : AssertionSignature} :
    (IndexedSignature.webAuthnAssertion a).Encodable ↔
      (minAuthenticatorDataBytes ≤ a.authenticatorData.length ∧
        a.authenticatorData.length ≤ maxAuthenticatorDataBytes) ∧
      1 ≤ a.clientDataJson.length ∧ a.clientDataJson.length ≤ maxClientDataJsonBytes := by
  simp only [IndexedSignature.Encodable, AssertionSignature.new, bind_ok_iff, exists_unit_iff,
    checkAuthenticatorDataLength_ok_iff, checkClientDataJsonLength_ok_iff, pure_ok_iff, and_true]

theorem fieldSignature_ok_iff {part : IndexedSignaturePart} {b rest : Bytes} {s : RawSignature} :
    fieldSignature part b = .ok (s, rest) ↔ b = beBytes 64 s.toNat ++ rest := by
  rw [fieldSignature, readBe_exact 64 _ b s rest, true_and]

/-- A length that passes its check, and the part it counts. -/
def readLengthed (lenPart part : IndexedSignaturePart)
    (check : ℕ → Except IndexedSignatureReadError Unit) (b : Bytes) :
    Except IndexedSignatureReadError (Bytes × Bytes) := do
  let (len, rest) ← fieldLength lenPart b
  check len
  fieldBytesOf len part rest

theorem readLengthed_ok_iff {lenPart part : IndexedSignaturePart} {max : ℕ} (hmax : max < 2^32)
    {check : ℕ → Except IndexedSignatureReadError Unit}
    (hcheck : ∀ len, check len = .ok () → len ≤ max) {b data rest : Bytes} :
    readLengthed lenPart part check b = .ok (data, rest) ↔
      check data.length = .ok () ∧ b = lengthedPart data ++ rest := by
  simp only [readLengthed, fieldLength, fieldBytesOf, bind_ok_iff, Prod.exists, exists_unit_iff, pure_ok_iff,
    Prod.mk.injEq, readU32_ok_iff, readBytes_exact _ _ _ _ _, id]
  constructor
  · rintro ⟨_, _, ⟨len, _, rfl, rfl, rfl⟩, hok, hlen, rfl⟩
    have hle := hcheck _ hok
    refine ⟨hlen ▸ hok, ?_⟩
    rw [lengthedPart, min_eq_left (by omega), hlen, u32Out, List.append_assoc]
  · rintro ⟨hok, rfl⟩
    have hle := hcheck _ hok
    have hto : (BitVec.ofNat 32 data.length).toNat = data.length := by
      rw [BitVec.toNat_ofNat, Nat.mod_eq_of_lt (by omega)]
    refine ⟨data.length, data ++ rest, ⟨BitVec.ofNat 32 data.length, data ++ rest, ?_, hto, rfl⟩,
      hok, rfl, rfl⟩
    rw [u32Out, hto, lengthedPart, min_eq_left (by omega), List.append_assoc]

theorem readFront_exact (form : SignatureForm) :
    Exact (IndexedSignature.readFront form) (fun s => s.form = form ∧ s.Encodable)
      IndexedSignature.toBytes := by
  intro b s rest
  cases form with
  | raw =>
    simp only [IndexedSignature.readFront, bind_ok_iff, Prod.exists, pure_ok_iff, Prod.mk.injEq,
      fieldSignature_ok_iff]
    constructor
    · rintro ⟨signature, _, rfl, rfl, rfl⟩
      exact ⟨⟨rfl, trivial⟩, rfl⟩
    · rintro ⟨⟨hform, -⟩, rfl⟩
      cases s with
      | raw signature => exact ⟨signature, rest, rfl, rfl, rfl⟩
      | webAuthnAssertion a => cases hform
  | webAuthnAssertion =>
    -- The two length-prefixed fields are one reader at two bounds.
    have hread : IndexedSignature.readFront .webAuthnAssertion b = (do
        let data ← readLengthed .authenticatorDataLength .authenticatorData
          checkAuthenticatorDataLength b
        let json ← readLengthed .clientDataJsonLength .clientDataJson
          checkClientDataJsonLength data.2
        let signature ← fieldSignature .assertionSignature json.2
        pure (.webAuthnAssertion ⟨data.1, json.1, signature.1⟩, signature.2)) := by
      simp only [IndexedSignature.readFront, readLengthed, bind_assoc]
    rw [hread]
    simp only [bind_ok_iff, Prod.exists, pure_ok_iff, Prod.mk.injEq, fieldSignature_ok_iff,
      readLengthed_ok_iff (by decide : maxAuthenticatorDataBytes < 2^32)
        (fun _ h => (checkAuthenticatorDataLength_ok_iff.mp h).2),
      readLengthed_ok_iff (by decide : maxClientDataJsonBytes < 2^32)
        (fun _ h => (checkClientDataJsonLength_ok_iff.mp h).2)]
    constructor
    · rintro ⟨data, _, ⟨hd, rfl⟩, json, _, ⟨hj, rfl⟩, signature, _, rfl, rfl, rfl⟩
      refine ⟨⟨rfl, assertion_encodable_iff.mpr ⟨checkAuthenticatorDataLength_ok_iff.mp hd,
        checkClientDataJsonLength_ok_iff.mp hj⟩⟩, ?_⟩
      simp only [IndexedSignature.toBytes, List.append_assoc]
    · rintro ⟨⟨hform, hok⟩, rfl⟩
      cases s with
      | raw signature => cases hform
      | webAuthnAssertion a =>
        obtain ⟨hd, hj⟩ := assertion_encodable_iff.mp hok
        refine ⟨a.authenticatorData, _, ⟨checkAuthenticatorDataLength_ok_iff.mpr hd, ?_⟩,
          a.clientDataJson, _, ⟨checkClientDataJsonLength_ok_iff.mpr hj, rfl⟩, a.signature, rest,
          rfl, rfl, rfl⟩
        simp only [IndexedSignature.toBytes, List.append_assoc]

end Signature

section Walk

/-- A signature by the signer, in its form. -/
def SignedBySigner (signer : NamedSigner) (s : NamedSignature) : Prop :=
  s.index = signer.index ∧ s.signature.form = signer.form ∧ s.signature.Encodable

theorem forall₂_signs {signers : List NamedSigner} {signed : List NamedSignature} :
    List.Forall₂ SignedBySigner signers signed ↔
      Signs ⟨signers.map (·.index), signers.map (·.form)⟩ signed := by
  constructor
  · intro h
    induction h with
    | nil => exact ⟨rfl, rfl, by simp⟩
    | cons hs _ ih =>
      obtain ⟨hindex, hform, hok⟩ := hs
      refine ⟨?_, ?_, List.forall_mem_cons.mpr ⟨hok, ih.encodable⟩⟩
      · exact congrArg₂ List.cons hindex ih.indices
      · exact congrArg₂ List.cons hform ih.forms
  · intro h
    obtain ⟨hindices, hforms, hok⟩ := h
    induction signed generalizing signers with
    | nil =>
      rw [List.map_nil, eq_comm, List.map_eq_nil_iff] at hindices
      rw [hindices]
      exact .nil
    | cons s signed ih =>
      cases signers with
      | nil => cases hindices
      | cons signer signers =>
        obtain ⟨hindex, hindices⟩ := List.cons.inj hindices
        obtain ⟨hform, hforms⟩ := List.cons.inj hforms
        obtain ⟨hs, hrest⟩ := List.forall_mem_cons.mp hok
        exact .cons ⟨hindex, hform, hs⟩ (ih hindices hforms hrest)

theorem walkGroup_exact (role : SignerGroupRole) (signers : List NamedSigner) :
    Exact (walkGroup role signers) (Signs ⟨signers.map (·.index), signers.map (·.form)⟩)
      (·.flatMap (·.signature.toBytes)) := by
  have hsigner (t : NamedSigner × ℕ) : Exact (fun rest => do
      let read ← (IndexedSignature.readFront t.1.form rest).mapError
        (fun error => (⟨role, t.2, t.1.index, error⟩ : SignatureFieldError))
      pure (⟨t.1.index, read.1⟩, read.2))
      (SignedBySigner t.1) (·.signature.toBytes) := by
    intro b s rest
    simp only [bind_ok_iff, mapError_ok_iff, Prod.exists, readFront_exact t.1.form _ _ _,
      pure_ok_iff, Prod.mk.injEq, SignedBySigner]
    constructor
    · rintro ⟨signature, _, ⟨hok, rfl⟩, rfl, rfl⟩
      exact ⟨⟨rfl, hok⟩, rfl⟩
    · rintro ⟨⟨hindex, hok⟩, rfl⟩
      exact ⟨s.signature, rest, ⟨hok, rfl⟩, by rw [← hindex], rfl⟩
  intro b signed rest
  have h := readEach_exact hsigner signers.zipIdx b signed rest
  have hkeys := List.forall₂_map_left_iff (R := SignedBySigner) (f := Prod.fst)
    (l := signers.zipIdx) (u := signed)
  rw [List.zipIdx_map_fst] at hkeys
  rw [walkGroup, h, ← forall₂_signs, hkeys]

theorem walkSignatureField_exact (header : EventHeader) :
    Exact (walkSignatureField header)
      (List.Forall₂ (fun group => Signs group.signerGroup) header.groups) signatureBytes := by
  have h (group : HeaderGroup) : Exact (walkGroup group.role group.signers)
      (Signs group.signerGroup) (·.flatMap (·.signature.toBytes)) :=
    walkGroup_exact group.role group.signers
  exact readEach_exact h header.groups

end Walk

section Unit

theorem fieldBytes_eq_some_iff {signed fields : Bytes} :
    fieldBytes signed = some fields ↔ signed = signedPreimageOf fields := by
  unfold fieldBytes
  constructor
  · intro h
    split_ifs at h with hsep
    obtain ⟨t, rfl⟩ := List.isPrefixOf_iff_prefix.mp hsep
    rw [List.drop_left, Option.some.injEq] at h
    rw [h, signedPreimageOf]
  · rintro rfl
    have hsep : kelEventSeparator.isPrefixOf (signedPreimageOf fields) = true :=
      List.isPrefixOf_iff_prefix.mpr ⟨fields, rfl⟩
    rw [if_pos hsep, signedPreimageOf, List.drop_left]

/-- What a decode past step 4 read. -/
theorem decodePrefixed_read_iff {prefixed field : Bytes} {read : ReadUnit} :
    decodePrefixed prefixed field = .read read ↔ fieldBytes prefixed = some read.fields ∧
      readEvent read.fields (signedLenOf read.fields) = .ok (read.header, read.preimage) ∧
      read.signatureField = (walkSignatureField read.header field).map (fun (signatures, rest) =>
        ⟨signatures, lengthPrefixBytes + prefixed.length + (field.length - rest.length)⟩) := by
  unfold decodePrefixed
  cases hf : fieldBytes prefixed with
  | none => simp
  | some fields =>
    dsimp only
    constructor
    · intro h
      split at h
      · cases h
      · rename_i header preimage hr
        obtain rfl := EventUnit.read.inj h
        exact ⟨rfl, hr, rfl⟩
    · intro ⟨hfields, hr, hsig⟩
      rw [Option.some.injEq] at hfields
      subst hfields
      rw [hr]
      obtain ⟨_, _, signatureField, _⟩ := read
      dsimp only at hsig ⊢
      rw [hsig]

/-- The bytes after `offset` are a length, the bytes it counts and the rest. -/
theorem prefixedBytes_iff {value prefixed field : Bytes} {offset : ℕ} :
    prefixedBytes value offset = some (prefixed, field) ↔ offset ≤ value.length ∧
      ∃ len : U32, value.drop offset = u32Out len ++ (prefixed ++ field) ∧
        prefixed.length = len.toNat := by
  unfold prefixedBytes
  split_ifs with hoffset
  · simp only [hoffset, true_and, bind, Option.bind_some]
    constructor
    · intro h
      obtain ⟨⟨len, body⟩, hread, h⟩ := Option.bind_eq_some_iff.mp h
      dsimp only at h
      split_ifs at h with hfits
      obtain ⟨rfl, rfl⟩ := Prod.mk.inj (Option.some.inj h)
      refine ⟨len, ?_, by simp [hfits]⟩
      rw [List.take_append_drop]
      apply (readU32_ok_iff () _ _ _).mp
      cases hr : readU32 () (value.drop offset) with
      | error e =>
        rw [hr] at hread
        cases hread
      | ok r =>
        rw [hr] at hread
        rw [Option.some.inj hread]
    · intro h
      obtain ⟨len, hdrop, hlen⟩ := h
      rw [(readU32_ok_iff () _ _ _).mpr hdrop]
      simp [Except.toOption, ← hlen]
  · simp [hoffset]

theorem signedPreimageOf_length (fields : Bytes) :
    (signedPreimageOf fields).length = signedLenOf fields := List.length_append

/-- An event whose header passes step 4 is short. -/
theorem readEvent_signedLen {fields : Bytes} {header : EventHeader}
    {body : Except BodyError EventPreimage}
    (h : readEvent fields (signedLenOf fields) = .ok (header, body)) :
    signedLenOf fields < 2^32 := by
  simp only [readEvent, bind_ok_iff, Prod.exists, readHeader_ok_iff, pure_ok_iff,
    Prod.mk.injEq] at h
  obtain ⟨_, _, ⟨hpasses, -⟩, rfl, -⟩ := h
  have hwithin := hpasses.within
  rw [hpasses.encodedLen, withinEventBytes, decide_eq_true_eq, encodedEventLen, maxEventBytes]
    at hwithin
  omega

/-- A unit read through its signature field is the unit of what was read, whatever follows. -/
theorem decodeEvent_walked_iff {value : Bytes} {offset : ℕ} {read : ReadUnit}
    {field : SignatureField} (hfield : read.signatureField = .ok field) :
    decodeEvent value offset = .read read ↔ offset ≤ value.length ∧
      (∃ rest, value.drop offset = unitOf read.fields field.signatures ++ rest) ∧
      readEvent read.fields (signedLenOf read.fields) = .ok (read.header, read.preimage) ∧
      List.Forall₂ (fun group => Signs group.signerGroup) read.header.groups field.signatures ∧
      field.consumed = (unitOf read.fields field.signatures).length := by
  have hlength (signed : List (List NamedSignature)) : (unitOf read.fields signed).length =
      lengthPrefixBytes+signedLenOf read.fields+(signatureBytes signed).length := by
    rw [unitOf, List.length_append, List.length_append, signedPreimageOf_length, beBytes_length,
      lengthPrefixBytes, Nat.add_assoc]
  -- What the walk of the signatures has consumed ends where the unit does.
  have hconsumed (signed : List (List NamedSignature)) (rest : Bytes) :
      lengthPrefixBytes+(signedPreimageOf read.fields).length+
        ((signatureBytes signed ++ rest).length-rest.length) =
          (unitOf read.fields signed).length := by
    rw [hlength, signedPreimageOf_length, List.length_append, Nat.add_sub_cancel]
  constructor
  · intro h
    unfold decodeEvent at h
    split at h
    · cases h
    · rename_i signedBytes after hprefixed
      obtain ⟨hoffset, len, hdrop, hlen⟩ := prefixedBytes_iff.mp hprefixed
      obtain ⟨hbytes, hevent, hwalk⟩ := decodePrefixed_read_iff.mp h
      rw [fieldBytes_eq_some_iff] at hbytes
      subst hbytes
      cases hsigned : walkSignatureField read.header after with
      | error e =>
        rw [hsigned, hfield] at hwalk
        cases hwalk
      | ok r =>
        obtain ⟨signed, rest⟩ := r
        rw [hsigned, hfield] at hwalk
        obtain ⟨hall, rfl⟩ := (walkSignatureField_exact read.header _ _ _).mp hsigned
        obtain rfl : field = ⟨signed, _⟩ := Except.ok.inj hwalk
        refine ⟨hoffset, ⟨rest, ?_⟩, hevent, hall, hconsumed signed rest⟩
        rw [hdrop, unitOf, u32Out, ← hlen, signedPreimageOf_length]
        simp only [List.append_assoc]
  · intro h
    obtain ⟨hoffset, ⟨rest, hdrop⟩, hevent, hall, hlast⟩ := h
    have hlen : (BitVec.ofNat 32 (signedLenOf read.fields)).toNat = signedLenOf read.fields := by
      rw [BitVec.toNat_ofNat, Nat.mod_eq_of_lt (readEvent_signedLen hevent)]
    have hprefixed : prefixedBytes value offset =
        some (signedPreimageOf read.fields, signatureBytes field.signatures ++ rest) := by
      apply prefixedBytes_iff.mpr
      refine ⟨hoffset, BitVec.ofNat 32 (signedLenOf read.fields), ?_, ?_⟩
      · rw [hdrop, unitOf, u32Out, hlen]
        simp only [List.append_assoc]
      · rw [hlen, signedPreimageOf_length]
    have hwalk : walkSignatureField read.header (signatureBytes field.signatures ++ rest) =
        .ok (field.signatures, rest) :=
      (walkSignatureField_exact read.header _ _ _).mpr ⟨hall, rfl⟩
    rw [decodeEvent, hprefixed]
    apply decodePrefixed_read_iff.mpr
    refine ⟨fieldBytes_eq_some_iff.mpr rfl, hevent, ?_⟩
    rw [hfield, hwalk]
    obtain ⟨signatures, consumed⟩ := field
    dsimp only at hlast ⊢
    rw [hlast, ← hconsumed signatures rest]
    rfl

/-- The groups a preimage names are those of the header it encodes to. -/
theorem forall₂_signerGroups {p : EventPreimage} {groups : List HeaderGroup}
    (h : p.signerGroups = groups.map HeaderGroup.signerGroup)
    {signed : List (List NamedSignature)} :
    List.Forall₂ Signs p.signerGroups signed ↔
      List.Forall₂ (fun group => Signs group.signerGroup) groups signed := by
  rw [h, List.forall₂_map_left_iff]

/-- The unit of an encodable preimage with its signatures reads back whole wherever it stands. -/
theorem decodeEvent_unitOf {p : EventPreimage} {e : EncodedPreimage}
    {signed : List (List NamedSignature)} (he : encodePreimage p = .ok e)
    (hsigned : List.Forall₂ Signs p.signerGroups signed) (front trailing : Bytes) :
    ∃ read, decodeEvent (front ++ (unitOf e.fields signed ++ trailing)) front.length = .read read ∧
      read.fields = e.fields ∧ read.preimage = .ok p ∧
      read.signatureField = .ok ⟨signed, (unitOf e.fields signed).length⟩ := by
  obtain ⟨⟨groups, hheader, hbody, hwithin⟩, rfl⟩ := (encodePreimage_ok_iff p e).mp he
  obtain ⟨header, hread⟩ := (readEvent_ok_iff (fieldsOut p) (signedLenOf (fieldsOut p)) p).mpr
    ⟨groups, hheader, hbody, hwithin, rfl⟩
  obtain ⟨-, hheads, -, -⟩ := readEvent_ok hread
  let read : ReadUnit := ⟨fieldsOut p, header, .ok ⟨signed, (unitOf (fieldsOut p) signed).length⟩,
    .ok p⟩
  refine ⟨read, ?_, rfl, rfl, rfl⟩
  apply (@decodeEvent_walked_iff _ _ read _ rfl).mpr
  refine ⟨by simp, ⟨trailing, by rw [List.drop_left]⟩, hread, ?_, rfl⟩
  exact (forall₂_signerGroups hheads.signerGroups).mp hsigned

/-- What was read writes the bytes it took again. -/
theorem unitOf_decodeEvent {value : Bytes} {offset : ℕ} {read : ReadUnit} {field : SignatureField}
    (h : decodeEvent value offset = .read read) (hfield : read.signatureField = .ok field)
    {p : EventPreimage} (hp : read.preimage = .ok p) :
    ∃ e, encodePreimage p = .ok e ∧ List.Forall₂ Signs p.signerGroups field.signatures ∧
      unitOf e.fields field.signatures = (value.drop offset).take field.consumed := by
  obtain ⟨-, ⟨rest, hdrop⟩, hevent, hall, hconsumed⟩ := (decodeEvent_walked_iff hfield).mp h
  rw [hp] at hevent
  obtain ⟨-, hheads, -, -⟩ := readEvent_ok hevent
  obtain ⟨groups, hheader, hbody, hwithin, hbytes⟩ :=
    (readEvent_ok_iff read.fields (signedLenOf read.fields) p).mp ⟨read.header, hevent⟩
  rw [hbytes] at hwithin
  refine ⟨⟨p, fieldsOut p⟩, (encodePreimage_ok_iff p _).mpr ⟨⟨groups, hheader, hbody, hwithin⟩, rfl⟩,
    (forall₂_signerGroups hheads.signerGroups).mpr hall, ?_⟩
  rw [hdrop, hconsumed, List.take_left, hbytes]

/-- A unit lies within the bytes it is read from, and any bytes with the same unit read alike. -/
theorem decodeEvent_local {value : Bytes} {offset : ℕ} {read : ReadUnit} {field : SignatureField}
    (h : decodeEvent value offset = .read read) (hfield : read.signatureField = .ok field) :
    offset+field.consumed ≤ value.length ∧ ∀ value' offset',
      (value'.drop offset').take field.consumed = (value.drop offset).take field.consumed →
        decodeEvent value' offset' = .read read := by
  obtain ⟨hoffset, ⟨rest, hdrop⟩, hevent, hall, hconsumed⟩ := (decodeEvent_walked_iff hfield).mp h
  have hlen : value.length-offset = field.consumed+rest.length := by
    rw [← List.length_drop, hdrop, List.length_append, hconsumed]
  refine ⟨by omega, ?_⟩
  intro value' offset' hsame
  rw [hdrop, hconsumed, List.take_left] at hsame
  apply (decodeEvent_walked_iff hfield).mpr
  refine ⟨?_, ⟨(value'.drop offset').drop field.consumed, ?_⟩, hevent, hall, hconsumed⟩
  · -- The unit is not empty, so the other bytes reach past their offset.
    by_contra hpast
    rw [List.drop_eq_nil_of_le (by omega), List.take_nil, unitOf, eq_comm,
      List.append_eq_nil_iff] at hsame
    have hnil := congrArg List.length hsame.1
    rw [beBytes_length] at hnil
    cases hnil
  · rw [← hsame, hconsumed, List.take_append_drop]

end Unit

/-- Event units are self-delimiting: a unit reads back wherever it stands and whatever follows
it; what is read lies within the input, depends only on the bytes taken, and encodes to them. -/
theorem event_units_self_delimiting :
    (∀ p e signed front trailing, encodePreimage p = .ok e →
      List.Forall₂ Signs p.signerGroups signed →
      ∃ read, decodeEvent (front ++ (unitOf e.fields signed ++ trailing)) front.length =
          .read read ∧ read.fields = e.fields ∧ read.preimage = .ok p ∧
        read.signatureField = .ok ⟨signed, (unitOf e.fields signed).length⟩) ∧
    ∀ value offset read field, decodeEvent value offset = .read read →
      read.signatureField = .ok field →
      offset+field.consumed ≤ value.length ∧
      (∀ value' offset', (value'.drop offset').take field.consumed =
        (value.drop offset).take field.consumed → decodeEvent value' offset' = .read read) ∧
      ∀ p, read.preimage = .ok p → ∃ e, encodePreimage p = .ok e ∧
        List.Forall₂ Signs p.signerGroups field.signatures ∧
        unitOf e.fields field.signatures = (value.drop offset).take field.consumed := by
  constructor
  · intro p e signed front trailing he hsigned
    exact decodeEvent_unitOf he hsigned front trailing
  · intro value offset read field h hfield
    obtain ⟨hle, hlocal⟩ := decodeEvent_local h hfield
    exact ⟨hle, hlocal, fun p hp => unitOf_decodeEvent h hfield hp⟩

def sampleSigned : List (List NamedSignature) := [[⟨0, .raw 7⟩]]

theorem samplePlain_signed : List.Forall₂ Signs samplePlain.signerGroups sampleSigned := by
  refine .cons ⟨rfl, rfl, ?_⟩ .nil
  intro s hs
  rw [List.mem_singleton.mp hs]
  trivial

/-- A unit behind one byte and before two others reads back, and reads the same at the front. -/
theorem event_units_self_delimiting_sample :
    ∃ read, decodeEvent ([1] ++ (unitOf (fieldsOut samplePlain) sampleSigned ++ [2, 3])) 1 =
        .read read ∧ read.preimage = .ok samplePlain ∧
      decodeEvent (unitOf (fieldsOut samplePlain) sampleSigned) 0 = .read read ∧
      ∃ e, encodePreimage samplePlain = .ok e ∧
        unitOf e.fields sampleSigned = unitOf (fieldsOut samplePlain) sampleSigned := by
  obtain ⟨hunit, hread⟩ := event_units_self_delimiting
  have hencode : encodePreimage samplePlain = .ok ⟨samplePlain, fieldsOut samplePlain⟩ := by
    decide +kernel
  obtain ⟨read, hdecode, -, hpreimage, hfield⟩ :=
    hunit _ _ _ [1] [2, 3] hencode samplePlain_signed
  dsimp only at hdecode hfield
  obtain ⟨-, hlocal, hbytes⟩ := hread _ _ _ _ hdecode hfield
  have htaken : (([1] ++ (unitOf (fieldsOut samplePlain) sampleSigned ++ [2, 3])).drop 1).take
      (unitOf (fieldsOut samplePlain) sampleSigned).length =
      unitOf (fieldsOut samplePlain) sampleSigned := by
    rw [List.singleton_append, List.drop_succ_cons, List.drop_zero, List.take_left]
  obtain ⟨e, hencode', -, hunit'⟩ := hbytes _ hpreimage
  refine ⟨read, hdecode, hpreimage, hlocal _ 0 ?_, e, hencode', hunit'.trans htaken⟩
  rw [List.drop_zero, List.take_length]
  exact htaken.symm

end ScpCore.Kel
