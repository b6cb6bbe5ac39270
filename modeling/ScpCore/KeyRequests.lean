import ScpCore.CaveatCounters
import ScpCore.NonceDedup

/-! The answering of sender-key and access-key requests. A request is answered when it is signed,
fresh and not in the cache of nonces; the nonce of an answered request is recorded. -/

namespace ScpCore.Dedup

def sealLengthText (len : ℕ) : String :=
  "HPKE seal produced " ++ toString len ++ " bytes, expected 48"

def requestFreshnessSecs : ℕ := nonceExpirySecs

structure SenderKeyRequest where
  requesterDid : String
  senderDid : String
  epoch : ℕ
  wrappingPubkey : Bytes
  nonce : Nonce
  timestamp : ℕ
  signature : Bytes
  deriving DecidableEq

structure SenderKeyResponse where
  senderDid : String
  epoch : ℕ
  hpkeSealedKey : Bytes
  ephemeralPubkey : Bytes
  requestNonce : Nonce
  deriving DecidableEq

structure HandleRequestParams where
  senderKey : Bytes
  contextId : String
  senderDid : String
  epoch : ℕ
  blockList : List String
  contextMembers : Option (List String)
  nowSecs : ℕ

inductive SenderKeyError
  | verificationFailed (text : String)
  | staleSenderKeyRequest
  | replayedRequest
  | notContextMember (did : String)
  | hpkeEncryptionFailed (text : String)
  | serializationFailed (text : String)
  deriving DecidableEq

/-- Signature check, sealing and serialization, as they answer in one call. -/
structure SenderKeyCrypto where
  verify : SenderKeyRequest → Bytes → Except SenderKeyError Bool
  hpkeSealSenderKey : Bytes → Bytes → String → String → ℕ → Except SenderKeyError (Bytes × Bytes)
  toVecNamed : SenderKeyResponse → Except String Bytes

def validateSenderKeyRequestFreshness (request : SenderKeyRequest) (nowSecs : ℕ) :
    Except SenderKeyError Unit := do
  -- Ahead of the clock by as much as it may be behind.
  require (request.timestamp ≤ saturatingAdd nowSecs requestFreshnessSecs) .staleSenderKeyRequest
  require (nowSecs - request.timestamp ≤ requestFreshnessSecs) .staleSenderKeyRequest

/-- What is checked before the cache is looked at. -/
def checkSenderRequest (crypto : SenderKeyCrypto) (request : SenderKeyRequest)
    (requesterPublicKey : Bytes) (nowSecs : ℕ) : Except SenderKeyError Unit := do
  let valid ← crypto.verify request requesterPublicKey
  require valid (.verificationFailed "sender key request signature verification failed")
  validateSenderKeyRequestFreshness request nowSecs

def checkMember (request : SenderKeyRequest) (params : HandleRequestParams) :
    Except SenderKeyError Unit :=
  match params.contextMembers with
  | some members => require (request.requesterDid ∈ members) (.notContextMember request.requesterDid)
  | none => .ok ()

/-- The message for a request that is not replayed; a blocked requester gets none. -/
def senderResponse (crypto : SenderKeyCrypto) (request : SenderKeyRequest)
    (params : HandleRequestParams) : Except SenderKeyError (Option Bytes) := do
  checkMember request params
  if request.requesterDid ∈ params.blockList then
    pure none
  else
    let (sealed, ephemeral) ← crypto.hpkeSealSenderKey params.senderKey request.wrappingPubkey
      params.contextId params.senderDid params.epoch
    require (sealed.length = 48) (.hpkeEncryptionFailed (sealLengthText sealed.length))
    let message ← (crypto.toVecNamed
      ⟨params.senderDid, params.epoch, sealed, ephemeral, request.nonce⟩).mapError
        .serializationFailed
    pure (some message)

def handleSenderKeyRequest (crypto : SenderKeyCrypto) (request : SenderKeyRequest)
    (requesterPublicKey : Bytes) (params : HandleRequestParams) (nonceDedup : NonceDedup) :
    Except SenderKeyError (Option Bytes) × NonceDedup :=
  match checkSenderRequest crypto request requesterPublicKey params.nowSecs with
  | .error e => (.error e, nonceDedup)
  | .ok () =>
    let (replayed, nonceDedup) := nonceDedup.isReplayed request.nonce params.nowSecs
    if replayed then (.error .replayedRequest, nonceDedup)
    else
      match senderResponse crypto request params with
      | .error e => (.error e, nonceDedup)
      -- A blocked requester leaves no nonce behind.
      | .ok none => (.ok none, nonceDedup)
      | .ok (some message) =>
        (.ok (some message), nonceDedup.record request.nonce params.nowSecs)

def requestMaxAgeSecs : ℕ := 300

def requestMaxFutureSecs : ℕ := 30

structure AccessKeyRequest where
  requesterDid : String
  contextId : String
  wrappingPubkey : Bytes
  nonce : Nonce
  timestamp : ℕ
  signature : Bytes
  deriving DecidableEq

structure AccessKey where
  contextId : String
  memberDid : String
  epoch : ℕ
  keyBytes : Bytes
  deriving DecidableEq

structure AccessKeyResponse where
  contextId : String
  memberDid : String
  epoch : ℕ
  hpkeSealedKey : Bytes
  ephemeralPubkey : Bytes
  deriving DecidableEq

inductive AccessKeyError
  | contextMismatch (expected actual : String)
  | verificationFailed (text : String)
  | staleRequest
  | replayedNonce
  | hpkeEncryptionFailed (text : String)
  | serializationFailed (text : String)
  deriving DecidableEq

/-- Key resolution, signature check, sealing and serialization, as they answer in one call. -/
structure AccessKeyCrypto where
  resolveActive : String → Option Bytes
  verify : AccessKeyRequest → Bytes → Except AccessKeyError Bool
  hpkeSeal : Bytes → AccessKey → Except String (Bytes × Bytes)
  toVec : AccessKeyResponse → Except String Bytes

def validateRequestFreshness (request : AccessKeyRequest) (nowSecs : ℕ) :
    Except AccessKeyError Unit := do
  require (request.timestamp ≤ saturatingAdd nowSecs requestMaxFutureSecs) .staleRequest
  require (nowSecs - request.timestamp ≤ requestMaxAgeSecs) .staleRequest

def checkAccessRequest (crypto : AccessKeyCrypto) (request : AccessKeyRequest)
    (expectedContextId : String) (nowSecs : ℕ) : Except AccessKeyError Unit := do
  -- First of all, so that a request for another context never reaches the seal.
  require (request.contextId = expectedContextId)
    (.contextMismatch expectedContextId request.contextId)
  let requesterKey ← okOr (crypto.resolveActive request.requesterDid)
    (.verificationFailed ("no #active key resolves for requester " ++ request.requesterDid))
  let valid ← crypto.verify request requesterKey
  require valid (.verificationFailed "access key request signature verification failed")
  validateRequestFreshness request nowSecs

def accessResponse (crypto : AccessKeyCrypto) (request : AccessKeyRequest)
    (accessKey : AccessKey) : Except AccessKeyError AccessKeyResponse := do
  let (enc, sealed) ← (crypto.hpkeSeal request.wrappingPubkey accessKey).mapError
    .hpkeEncryptionFailed
  require (sealed.length = 48) (.hpkeEncryptionFailed (sealLengthText sealed.length))
  pure ⟨accessKey.contextId, accessKey.memberDid, accessKey.epoch, sealed, enc⟩

def handleAccessKeyRequest (crypto : AccessKeyCrypto) (request : AccessKeyRequest)
    (expectedContextId : String) (accessKey : AccessKey) (nowSecs : ℕ) (nonceDedup : NonceDedup) :
    Except AccessKeyError Bytes × NonceDedup :=
  match checkAccessRequest crypto request expectedContextId nowSecs with
  | .error e => (.error e, nonceDedup)
  | .ok () =>
    let (replayed, nonceDedup) := nonceDedup.isReplayed request.nonce nowSecs
    if replayed then (.error .replayedNonce, nonceDedup)
    else
      match accessResponse crypto request accessKey with
      | .error e => (.error e, nonceDedup)
      | .ok response =>
        -- The nonce is recorded before the response is serialized.
        ((crypto.toVec response).mapError .serializationFailed,
          nonceDedup.record request.nonce nowSecs)

/-- How a handler leaves the cache: as it was, without its expired entries, or, where the nonce
is not replayed, with the nonce of the answered request. -/
inductive Served (dedup : NonceDedup) (nonce : Nonce) (now : ℕ) : Bool → NonceDedup → Prop
  | refused : Served dedup nonce now false dedup
  | swept : Served dedup nonce now false (dedup.evictExpired now)
  | answered (hnot : dedup.isReplayedRead nonce now = false) :
      Served dedup nonce now true ((dedup.evictExpired now).record nonce now)

theorem Served.cases {dedup after : NonceDedup} {nonce : Nonce} {now : ℕ} {flag : Bool}
    (h : Served dedup nonce now flag after) :
    (flag = false ∧ (after = dedup ∨ after = dedup.evictExpired now)) ∨
      (flag = true ∧ dedup.isReplayedRead nonce now = false ∧
        after = (dedup.evictExpired now).record nonce now) := by
  cases h with
  | refused => exact Or.inl ⟨rfl, Or.inl rfl⟩
  | swept => exact Or.inl ⟨rfl, Or.inr rfl⟩
  | answered hnot => exact Or.inr ⟨rfl, hnot, rfl⟩

section

variable {ε : Type} (nonceOf : ε → Nonce) (nowOf : ε → ℕ)
  (handle : NonceDedup → ε → Bool × NonceDedup)

/-- The answered requests of a run, in order. -/
def answered : NonceDedup → List ε → List ε
  | _, [] => []
  | dedup, e :: rest =>
    (if (handle dedup e).1 then [e] else []) ++ answered (handle dedup e).2 rest

theorem answered_sublist (dedup : NonceDedup) (run : List ε) :
    (answered handle dedup run).Sublist run := by
  induction run generalizing dedup with
  | nil => exact List.Sublist.slnil
  | cons e rest ih =>
    rw [answered]
    split_ifs
    · exact (ih _).cons_cons e
    · exact (ih _).cons e

variable {nonceOf nowOf handle}

/-- Answered requests with one nonce are a time to live apart. -/
theorem answered_spaced {dedup : NonceDedup} {clock ttl : ℕ} {recorded : List (Nonce × ℕ)}
    {run : List ε}
    (hserved : ∀ d, ∀ e ∈ run, Served d (nonceOf e) (nowOf e) (handle d e).1 (handle d e).2)
    (hkeeps : Keeps dedup clock recorded) (httl : dedup.ttlSecs = ttl)
    (hclock : ∀ e ∈ run, clock ≤ nowOf e) (hsteady : (run.map nowOf).Pairwise (· ≤ ·))
    (hroom : dedup.len + (answered handle dedup run).length ≤ nonceDedupCapacity) :
    (∀ r ∈ recorded, ∀ e ∈ answered handle dedup run, r.1 = nonceOf e → r.2 + ttl ≤ nowOf e) ∧
      (answered handle dedup run).Pairwise (fun e e' => nonceOf e = nonceOf e' →
        nowOf e + ttl ≤ nowOf e') := by
  -- What is recorded grows by each answer, and the cache keeps it for a time to live.
  induction run generalizing dedup clock recorded with
  | nil => exact ⟨fun _ _ _ he => absurd he List.not_mem_nil, List.Pairwise.nil⟩
  | cons e rest ih =>
    have hserved' : ∀ d, ∀ e ∈ rest,
        Served d (nonceOf e) (nowOf e) (handle d e).1 (handle d e).2 :=
      fun d e' he' => hserved d e' (List.mem_cons_of_mem e he')
    have hnow := hclock e List.mem_cons_self
    rw [List.map_cons, List.pairwise_cons] at hsteady
    have hrest : ∀ e' ∈ rest, nowOf e ≤ nowOf e' :=
      fun e' he' => hsteady.1 _ (List.mem_map_of_mem he')
    rw [answered] at hroom ⊢
    rcases (hserved dedup e List.mem_cons_self).cases with ⟨hflag, hafter⟩ | ⟨hflag, hnot, hafter⟩
    · rw [hflag, if_neg Bool.false_ne_true, List.nil_append] at hroom ⊢
      rcases hafter with hafter | hafter
      -- A refused request may still have swept the cache.
      · rw [hafter] at hroom ⊢
        exact ih hserved' (hkeeps.mono hnow) httl hrest hsteady.2 hroom
      · rw [hafter] at hroom ⊢
        refine ih hserved' (hkeeps.evictExpired hnow) httl hrest hsteady.2 (le_trans ?_ hroom)
        exact Nat.add_le_add_right NonceDedup.len_evictExpired_le _
    · rw [hflag, if_pos rfl, List.singleton_append, hafter] at hroom ⊢
      rw [List.length_cons] at hroom
      have hswept : (dedup.evictExpired (nowOf e)).len ≤ dedup.len := NonceDedup.len_evictExpired_le
      have hlen := @NonceDedup.len_record_le (dedup.evictExpired (nowOf e)) (nonceOf e) (nowOf e)
      have hkeeps' := @Keeps.record _ _ _ _ (nonceOf e) (hkeeps.evictExpired hnow) le_rfl
        (by omega)
      have hlater := ih hserved' hkeeps' (by simp [httl]) hrest hsteady.2 (by omega)
      constructor
      · intro r hr e' he' hsame
        rcases List.mem_cons.mp he' with rfl | hmem
        · rw [← httl]
          exact hkeeps.expired hnow (by rwa [← hsame]) hnot
        · exact hlater.1 r (List.mem_cons_of_mem _ hr) e' hmem hsame
      · refine List.Pairwise.cons ?_ hlater.2
        intro e' he' hsame
        exact hlater.1 (nonceOf e, nowOf e) List.mem_cons_self e' he' hsame

theorem answered_of_forall {dedup : NonceDedup} {run : List ε} {P : ε → Prop}
    (h : ∀ d, ∀ e ∈ run, (handle d e).1 = true → P e) :
    ∀ e ∈ answered handle dedup run, P e := by
  induction run generalizing dedup with
  | nil => exact fun e he => absurd he List.not_mem_nil
  | cons e rest ih =>
    intro e' he'
    rw [answered] at he'
    rcases List.mem_append.mp he' with hnow | hlater
    · by_cases hflag : (handle dedup e).1 = true
      · rw [if_pos hflag, List.mem_singleton] at hnow
        rw [hnow]
        exact h dedup e List.mem_cons_self hflag
      · rw [if_neg hflag] at hnow
        cases hnow
    · exact ih (fun d e'' he'' => h d e'' (List.mem_cons_of_mem e he'')) e' hlater

/-- Where no fresh request comes again a time to live later, none is answered twice. -/
theorem answered_once {Same : ε → ε → Prop} {Fresh : ε → Prop} {run : List ε}
    (hserved : ∀ d, ∀ e ∈ run, Served d (nonceOf e) (nowOf e) (handle d e).1 (handle d e).2)
    (hfresh : ∀ d, ∀ e ∈ run, (handle d e).1 = true → Fresh e)
    (hsame : ∀ e e', Same e e' → nonceOf e = nonceOf e')
    (hsteady : (run.map nowOf).Pairwise (· ≤ ·))
    (hroom : (answered handle .new run).length < nonceDedupCapacity)
    (hlate : run.Pairwise (fun e e' => Same e e' → Fresh e → Fresh e' →
      nowOf e' < nowOf e + nonceExpirySecs)) :
    (answered handle .new run).Pairwise (fun e e' => ¬ Same e e') := by
  have hempty : NonceDedup.new.len = 0 := rfl
  have hspaced := (answered_spaced hserved (@Keeps.nil .new 0) rfl (fun _ _ => Nat.zero_le _)
    hsteady (by omega)).2
  have hall : ∀ e ∈ answered handle .new run, Fresh e := answered_of_forall hfresh
  refine (hspaced.and (hlate.sublist (answered_sublist handle .new run))).imp_of_mem ?_
  rintro e e' he he' ⟨hgap, hearly⟩ hboth
  have hge := hgap (hsame e e' hboth)
  have hlt := hearly hboth (hall e he) (hall e' he')
  have httl : NonceDedup.new.ttlSecs = nonceExpirySecs := rfl
  omega

end

/-- A sender-key request as it is handled, with the parameters of the call. -/
structure SenderCall where
  crypto : SenderKeyCrypto
  request : SenderKeyRequest
  requesterPublicKey : Bytes
  params : HandleRequestParams

def isAnswer : Except SenderKeyError (Option Bytes) → Bool
  | .ok (some _) => true
  | _ => false

def SenderCall.handle (dedup : NonceDedup) (c : SenderCall) : Bool × NonceDedup :=
  (isAnswer (handleSenderKeyRequest c.crypto c.request c.requesterPublicKey c.params dedup).1,
    (handleSenderKeyRequest c.crypto c.request c.requesterPublicKey c.params dedup).2)

def SenderCall.Fresh (c : SenderCall) : Prop :=
  c.request.timestamp ≤ saturatingAdd c.params.nowSecs requestFreshnessSecs ∧
    c.params.nowSecs - c.request.timestamp ≤ requestFreshnessSecs

def SenderCall.Same (c c' : SenderCall) : Prop :=
  c.request.nonce = c'.request.nonce ∧ c.request.timestamp = c'.request.timestamp

instance (c c' : SenderCall) : Decidable (c.Same c') := inferInstanceAs (Decidable (_ ∧ _))

structure AccessCall where
  crypto : AccessKeyCrypto
  request : AccessKeyRequest
  expectedContextId : String
  accessKey : AccessKey
  nowSecs : ℕ

def AccessCall.handle (dedup : NonceDedup) (c : AccessCall) : Bool × NonceDedup :=
  ((handleAccessKeyRequest c.crypto c.request c.expectedContextId c.accessKey c.nowSecs
      dedup).1.toBool,
    (handleAccessKeyRequest c.crypto c.request c.expectedContextId c.accessKey c.nowSecs dedup).2)

def AccessCall.Fresh (c : AccessCall) : Prop :=
  c.request.timestamp ≤ saturatingAdd c.nowSecs requestMaxFutureSecs ∧
    c.nowSecs - c.request.timestamp ≤ requestMaxAgeSecs

def AccessCall.Same (c c' : AccessCall) : Prop :=
  c.request.nonce = c'.request.nonce ∧ c.request.timestamp = c'.request.timestamp

instance (c c' : AccessCall) : Decidable (c.Same c') := inferInstanceAs (Decidable (_ ∧ _))

/-- The response of an access key is plain strings, numbers and bytes, and always serializes. -/
def AccessCall.Serializes (c : AccessCall) : Prop :=
  ∀ response, ∃ bytes, c.crypto.toVec response = .ok bytes

theorem SenderCall.handle_served (dedup : NonceDedup) (c : SenderCall) :
    Served dedup c.request.nonce c.params.nowSecs (c.handle dedup).1 (c.handle dedup).2 ∧
      ((c.handle dedup).1 = true → c.Fresh) := by
  rw [handle, handleSenderKeyRequest]
  cases hchecks : checkSenderRequest c.crypto c.request c.requesterPublicKey c.params.nowSecs with
  | error e => exact ⟨.refused, fun h => by cases h⟩
  | ok u =>
    have hfresh : c.Fresh := by
      simp only [checkSenderRequest, validateSenderKeyRequestFreshness, bind_ok_iff,
        exists_unit_iff, require_ok_iff, decide_eq_true_eq] at hchecks
      obtain ⟨_, _, _, hfresh⟩ := hchecks
      exact hfresh
    refine ⟨?_, fun _ => hfresh⟩
    simp only [NonceDedup.isReplayed, NonceDedup.isReplayedRead_evictExpired]
    by_cases hreplayed : dedup.isReplayedRead c.request.nonce c.params.nowSecs = true
    · rw [if_pos hreplayed]
      exact .swept
    · rw [if_neg hreplayed]
      rcases senderResponse c.crypto c.request c.params with _ | _ | _
      · exact .swept
      · exact .swept
      · exact .answered (by simpa using hreplayed)

theorem AccessCall.handle_served (dedup : NonceDedup) {c : AccessCall} (hserial : c.Serializes) :
    Served dedup c.request.nonce c.nowSecs (c.handle dedup).1 (c.handle dedup).2 ∧
      ((c.handle dedup).1 = true → c.Fresh) := by
  rw [handle, handleAccessKeyRequest]
  cases hchecks : checkAccessRequest c.crypto c.request c.expectedContextId c.nowSecs with
  | error e => exact ⟨.refused, fun h => by cases h⟩
  | ok u =>
    have hfresh : c.Fresh := by
      simp only [checkAccessRequest, validateRequestFreshness, bind_ok_iff, exists_unit_iff,
        require_ok_iff, decide_eq_true_eq] at hchecks
      obtain ⟨_, _, _, _, _, _, hfresh⟩ := hchecks
      exact hfresh
    refine ⟨?_, fun _ => hfresh⟩
    simp only [NonceDedup.isReplayed, NonceDedup.isReplayedRead_evictExpired]
    by_cases hreplayed : dedup.isReplayedRead c.request.nonce c.nowSecs = true
    · rw [if_pos hreplayed]
      exact .swept
    · rw [if_neg hreplayed]
      rcases accessResponse c.crypto c.request c.accessKey with _ | response
      · exact .swept
      · obtain ⟨bytes, hbytes⟩ := hserial response
        simp only [hbytes]
        exact .answered (by simpa using hreplayed)

/-- No sender-key request and no access-key request is answered twice from one cache, unless it
comes again, still fresh, a time to live later. -/
theorem key_request_answered_once (senders : List SenderCall) (accesses : List AccessCall)
    (hsenders : (senders.map (fun c => c.params.nowSecs)).Pairwise (· ≤ ·))
    (haccesses : (accesses.map (fun c => c.nowSecs)).Pairwise (· ≤ ·))
    (hserial : ∀ c ∈ accesses, c.Serializes)
    (hroom : (answered SenderCall.handle .new senders).length < nonceDedupCapacity)
    (hroom' : (answered AccessCall.handle .new accesses).length < nonceDedupCapacity)
    (hlate : senders.Pairwise (fun c c' => c.Same c' → c.Fresh → c'.Fresh →
      c'.params.nowSecs < c.params.nowSecs + nonceExpirySecs))
    (hlate' : accesses.Pairwise (fun c c' => c.Same c' → c.Fresh → c'.Fresh →
      c'.nowSecs < c.nowSecs + nonceExpirySecs)) :
    (answered SenderCall.handle .new senders).Pairwise (fun c c' => ¬ c.Same c') ∧
      (answered AccessCall.handle .new accesses).Pairwise (fun c c' => ¬ c.Same c') := by
  constructor
  · have hserved : ∀ d, ∀ c ∈ senders,
        Served d c.request.nonce c.params.nowSecs (c.handle d).1 (c.handle d).2 :=
      fun d c _ => (c.handle_served d).1
    exact answered_once hserved (fun d c _ => (c.handle_served d).2) (fun _ _ h => h.1) hsenders
      hroom hlate
  · have hserved : ∀ d, ∀ c ∈ accesses,
        Served d c.request.nonce c.nowSecs (c.handle d).1 (c.handle d).2 :=
      fun d c hc => (AccessCall.handle_served d (hserial c hc)).1
    exact answered_once hserved (fun d c hc => (AccessCall.handle_served d (hserial c hc)).2)
      (fun _ _ h => h.1) haccesses hroom' hlate'

/-- A request stamped at a second and handled at another, all else in order. -/
def senderCallAt (timestamp nowSecs : ℕ) : SenderCall where
  crypto :=
    { verify := fun _ _ => .ok true
      hpkeSealSenderKey := fun _ _ _ _ _ => .ok (List.replicate 48 1, [4])
      toVecNamed := fun response => .ok (response.hpkeSealedKey ++ response.ephemeralPubkey) }
  request := ⟨"alice", "bob", 1, [4], 7, timestamp, [9]⟩
  requesterPublicKey := [3]
  params := ⟨[5], "c1", "bob", 1, ["mallory"], some ["alice", "bob"], nowSecs⟩

def accessCallAt (timestamp nowSecs : ℕ) : AccessCall where
  crypto :=
    { resolveActive := fun _ => some [3]
      verify := fun _ _ => .ok true
      hpkeSeal := fun _ _ => .ok ([4], List.replicate 48 1)
      toVec := fun response => .ok (response.hpkeSealedKey ++ response.ephemeralPubkey) }
  request := ⟨"alice", "c1", [4], 7, timestamp, [9]⟩
  expectedContextId := "c1"
  accessKey := ⟨"c1", "alice", 1, [5]⟩
  nowSecs := nowSecs

theorem quick_repeats_refused :
    (answered SenderCall.handle .new [senderCallAt 1000 1000, senderCallAt 1000 1299]).Pairwise
        (fun c c' => ¬ c.Same c') ∧
      (answered AccessCall.handle .new [accessCallAt 1030 1000, accessCallAt 1030 1299]).Pairwise
        (fun c c' => ¬ c.Same c') :=
  key_request_answered_once [senderCallAt 1000 1000, senderCallAt 1000 1299]
    [accessCallAt 1030 1000, accessCallAt 1030 1299] (by decide) (by decide)
    (by
      intro c hc response
      simp only [List.mem_cons, List.not_mem_nil, or_false] at hc
      rcases hc with rfl | rfl <;> exact ⟨_, rfl⟩)
    (by decide) (by decide)
    (by
      refine List.Pairwise.cons ?_ (List.pairwise_singleton _ _)
      intro c' hc' _ _ _
      rw [List.mem_singleton.mp hc']
      decide)
    (by
      refine List.Pairwise.cons ?_ (List.pairwise_singleton _ _)
      intro c' hc' _ _ _
      rw [List.mem_singleton.mp hc']
      decide)

/-- A request stamped as it arrives, and an access-key request stamped half a minute ahead: each
comes again five minutes later, when its nonce has expired and its stamp has not. -/
theorem late_repeats_answered :
    (answered SenderCall.handle .new [senderCallAt 1000 1000, senderCallAt 1000 1300]).length = 2 ∧
    ¬ (answered SenderCall.handle .new [senderCallAt 1000 1000, senderCallAt 1000 1300]).Pairwise
      (fun c c' => ¬ c.Same c') ∧
    (answered AccessCall.handle .new [accessCallAt 1030 1000, accessCallAt 1030 1330]).length = 2 ∧
    ¬ (answered AccessCall.handle .new [accessCallAt 1030 1000, accessCallAt 1030 1330]).Pairwise
      (fun c c' => ¬ c.Same c') := by
  decide

end ScpCore.Dedup
