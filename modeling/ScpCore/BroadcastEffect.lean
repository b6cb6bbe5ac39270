import ScpCore.Broadcast

/-! The operations of a broadcast context as one type, and what each of them leaves of the
authors' keys, the block lists and the bans. -/

namespace ScpCore.Broadcast

open OrderedMap BroadcastContext

inductive Op
  | addAuthor (authorDid : String)
  | blockAuthor (authorDid : String)
  | subscribe (subscriberDid : String) (admittance : Admittance) (timestamp : ℕ)
  | unsubscribe (subscriberDid : String) (rotateKeys : Bool)
  | blockSubscriber (authorDid blockedDid : String)
  | blockSubscriberGroup (authorDid : String) (blockedDids : List String)
  | unblockSubscriber (authorDid unblockedDid : String)
  | governanceBanSubscriber (did : String)
  | governanceUnbanSubscriber (did : String)
  | rotateAllAuthorKeys
  | publish (authorDid : String) (timestamp : ℕ) (failure : Option String)
  | reservePublish (authorDid : String)
  | applyReservedPublish (authorDid : String) (sequence timestamp : ℕ) (failure : Option String)
  | rollbackReservedPublish (authorDid : String) (reservedSequence : ℕ)
  | applyReadExclusions (excluded : List String)
  | handleKeyRequest (authorDid requesterDid : String) (wrappingPubkey : List UInt8)
      (failure : Option String)
  | restore

section Run
variable {κ : Type}

/-- The context after an operation that leaves it as it was where it fails. -/
def keptUnless (c : BroadcastContext κ) (r : Except ContextError (BroadcastContext κ)) :
    BroadcastContext κ :=
  r.toOption.getD c

def Op.apply (draw : ℕ → κ) (c : BroadcastContext κ) : Op → BroadcastContext κ
  | .addAuthor a => keptUnless c (c.addAuthor a draw)
  | .blockAuthor a => keptUnless c ((c.blockAuthor a).map Prod.snd)
  | .subscribe d admittance t => keptUnless c ((c.subscribe d admittance t).map Prod.snd)
  | .unsubscribe d rotateKeys => (c.unsubscribe d rotateKeys draw).2
  | .blockSubscriber a d => (c.blockSubscriber a d draw).2
  | .blockSubscriberGroup a ds => (c.blockSubscriberGroup a ds draw).2
  | .unblockSubscriber a d => keptUnless c ((c.unblockSubscriber a d).map Prod.snd)
  | .governanceBanSubscriber d => (c.governanceBanSubscriber d draw).2
  | .governanceUnbanSubscriber d => c.governanceUnbanSubscriber d
  | .rotateAllAuthorKeys => keptUnless c ((c.rotateAllAuthorKeys draw).map Prod.snd)
  | .publish a t failure => (c.publish a t failure).2
  | .reservePublish a => keptUnless c ((c.reservePublish a).map Prod.snd)
  | .applyReservedPublish _ _ _ _ => c
  | .rollbackReservedPublish a n => c.rollbackReservedPublish a n
  | .applyReadExclusions ds => c.applyReadExclusions ds
  | .handleKeyRequest _ _ _ _ => c
  | .restore => BroadcastContext.fromSnapshot c.toSnapshot

/-- How many authors an interrupted rotation reaches. -/
def reached (authors : OrderedMap String (AuthorState κ)) : ℕ :=
  (authors.takeWhile (fun e => e.2.epoch ≠ u64Max)).length

def blockGenerates (c : BroadcastContext κ) (authorDid : String) : ℕ :=
  match c.authors.get authorDid with
  | none => 0
  | some author => if author.epoch = u64Max then 0 else 1

def rotationGenerates (c : BroadcastContext κ) : ℕ :=
  if c.authors.any (fun e => e.2.epoch = u64Max) then 0 else c.authors.length

/-- The sender keys an operation generates. -/
def Op.generates (c : BroadcastContext κ) : Op → ℕ
  | .addAuthor a => if c.authors.contains a then 0 else 1
  | .unsubscribe d rotateKeys =>
    if c.subscribers.contains d && rotateKeys then reached c.authors else 0
  | .blockSubscriber a _ => blockGenerates c a
  | .blockSubscriberGroup a ds => if ds.isEmpty then 0 else blockGenerates c a
  | .governanceBanSubscriber _ => rotationGenerates c
  | .rotateAllAuthorKeys => rotationGenerates c
  | _ => 0

def Op.succeeds (draw : ℕ → κ) (c : BroadcastContext κ) : Op → Bool
  | .addAuthor a => (c.addAuthor a draw).isOk
  | .blockAuthor a => (c.blockAuthor a).isOk
  | .subscribe d admittance t => (c.subscribe d admittance t).isOk
  | .unsubscribe d rotateKeys => (c.unsubscribe d rotateKeys draw).1.isOk
  | .blockSubscriber a d => (c.blockSubscriber a d draw).1.isOk
  | .blockSubscriberGroup a ds => (c.blockSubscriberGroup a ds draw).1.isOk
  | .unblockSubscriber a d => (c.unblockSubscriber a d).isOk
  | .governanceBanSubscriber d => (c.governanceBanSubscriber d draw).1.isOk
  | .rotateAllAuthorKeys => (c.rotateAllAuthorKeys draw).isOk
  | .publish a t failure => (c.publish a t failure).1.isOk
  | .reservePublish a => (c.reservePublish a).isOk
  | .applyReservedPublish a n t failure => (c.applyReservedPublish a n t failure).isOk
  | _ => true

/-- A block of the reader by the author, alone or in a group. -/
def Op.blocks (a d : String) (op : Op) : Prop :=
  op = .blockSubscriber a d ∨ ∃ ds, d ∈ ds ∧ op = .blockSubscriberGroup a ds

/-- A key sent to a reader who asked for it. -/
structure Grant (κ : Type) where
  requesterDid : String
  authorDid : String
  key : κ
  deriving DecidableEq

def Op.granted (c : BroadcastContext κ) : Op → List (Grant κ)
  | .handleKeyRequest a d pubkey failure =>
    match c.handleKeyRequest a d pubkey failure with
    | .grant key _ _ => [⟨d, a, key⟩]
    | .deny _ => []
  | _ => []

/-- An envelope, under the author it was published for. -/
structure Sealing (κ : Type) where
  authorDid : String
  envelope : BroadcastEnvelope κ
  deriving DecidableEq

def sealing (a : String) (r : Except ContextError (BroadcastEnvelope κ)) : List (Sealing κ) :=
  r.toOption.toList.map (⟨a, ·⟩)

def Op.seals (c : BroadcastContext κ) : Op → List (Sealing κ)
  | .publish a t failure => sealing a (c.publish a t failure).1
  | .applyReservedPublish a n t failure => sealing a (c.applyReservedPublish a n t failure)
  | _ => []

theorem keptUnless_of {c : BroadcastContext κ} {r : Except ContextError (BroadcastContext κ)}
    {P : BroadcastContext κ → Prop} (hc : P c) (hr : ∀ c', r = .ok c' → P c') :
    P (keptUnless c r) := by
  unfold keptUnless
  cases r with
  | error e => exact hc
  | ok c' => exact hr c' rfl

theorem keptUnless_snd_of {α : Type} {c : BroadcastContext κ}
    {r : Except ContextError (α × BroadcastContext κ)} {P : BroadcastContext κ → Prop} (hc : P c)
    (hr : ∀ x c', r = .ok (x, c') → P c') : P (keptUnless c (r.map Prod.snd)) := by
  apply keptUnless_of hc
  intro c' h
  cases r with
  | error e => cases h
  | ok p =>
    cases h
    exact hr p.1 p.2 rfl

variable {c c' : BroadcastContext κ} {draw : ℕ → κ}

theorem addAuthor_ok {a : String} (h : c.addAuthor a draw = .ok c') :
    c.authors.contains a = false ∧
      c' = { c with authors := c.authors.orInsert a (.new a (draw 0)) } := by
  unfold addAuthor at h
  simp only [bind_ok_iff, exists_unit_iff, require_ok_iff, pure_ok_iff] at h
  exact ⟨by simpa using h.1, h.2.symm⟩

theorem blockAuthor_ok {a : String} {epoch : ℕ} (h : c.blockAuthor a = .ok (epoch, c')) :
    c' = { c with authors := c.authors.removeKey a } := by
  unfold blockAuthor at h
  simp only [bind_ok_iff, okOr_ok_iff, pure_ok_iff, Prod.mk.injEq] at h
  obtain ⟨-, -, -, h⟩ := h
  exact h.symm

theorem subscribe_ok {d : String} {admittance : Admittance} {t : ℕ} {epochs : List (String × ℕ)}
    (h : c.subscribe d admittance t = .ok (epochs, c')) :
    d ∉ c.bannedSubscribers ∧ c'.authors = c.authors ∧
      c'.bannedSubscribers = c.bannedSubscribers := by
  unfold subscribe at h
  simp only [bind_ok_iff, exists_unit_iff, require_ok_iff, pure_ok_iff, Prod.mk.injEq] at h
  obtain ⟨hd, -, -, -, -, rfl⟩ := h
  exact ⟨by simpa using hd, rfl, rfl⟩

theorem unblockSubscriber_ok {a d : String} {list : List String}
    (h : c.unblockSubscriber a d = .ok (list, c')) :
    c' = { c with authors := c.authors.adjust a (·.unblock d) } := by
  unfold unblockSubscriber at h
  simp only [bind_ok_iff, exists_unit_iff, okOr_ok_iff, require_ok_iff, pure_ok_iff,
    Prod.mk.injEq] at h
  obtain ⟨-, -, -, -, h⟩ := h
  exact h.symm

theorem rotateAllAuthorKeys_ok {epochs : List (String × ℕ)}
    (h : c.rotateAllAuthorKeys draw = .ok (epochs, c')) :
    rotationGenerates c = c.authors.length ∧
      c' = { c with authors := c.authors.mapFrom (fun n a => a.rotate (draw n)) 0 } := by
  unfold rotateAllAuthorKeys at h
  simp only [bind_ok_iff, exists_unit_iff, require_ok_iff, pure_ok_iff, Prod.mk.injEq] at h
  obtain ⟨hroom, -, h⟩ := h
  refine ⟨?_, h.symm⟩
  rw [rotationGenerates, if_neg (by simpa using hroom)]

theorem reserve_ok {a : String} {author : AuthorState κ} (h : c.reserve a author = .ok c') :
    ∃ next, c' = { c with
      authors := c.authors.adjust a (fun x => { x with nextSequence := next }) } := by
  unfold reserve at h
  simp only [bind_ok_iff, exists_unit_iff, require_ok_iff, pure_ok_iff] at h
  exact ⟨_, h.2.symm⟩

theorem reservePublish_ok {a : String} {reservation : BroadcastPublishReservation}
    (h : c.reservePublish a = .ok (reservation, c')) :
    ∃ author, c.reserve a author = .ok c' := by
  unfold reservePublish at h
  simp only [bind_ok_iff, okOr_ok_iff, pure_ok_iff, Prod.mk.injEq] at h
  obtain ⟨author, -, reserved, h, -, rfl⟩ := h
  exact ⟨author, h⟩

/-- Publishing spends a sequence number or nothing. -/
theorem publish_cases (c : BroadcastContext κ) (a : String) (t : ℕ) (failure : Option String) :
    (c.publish a t failure).2 = c ∨
      ∃ author, c.reserve a author = .ok (c.publish a t failure).2 := by
  unfold publish
  cases hget : c.authors.get a with
  | none => exact Or.inl rfl
  | some author =>
    cases hres : c.reserve a author with
    | error e => simp [hres]
    | ok reserved => exact Or.inr ⟨author, by simp [hres]⟩

/-- A rotation in order reaches the authors before the first whose epoch is exhausted. -/
theorem rotateInOrder_authors (n : ℕ) (authors : OrderedMap String (AuthorState κ)) :
    (rotateInOrder draw n authors).2 = authors.mapFrom
      (fun i a => if i < n+reached authors then a.rotate (draw i) else a) n := by
  induction authors generalizing n with
  | nil => rfl
  | cons e authors ih =>
    unfold rotateInOrder
    by_cases h : e.2.epoch = u64Max
    · have hnone : reached (e :: authors) = 0 := by
        simp [reached, h]
      have hkeep : ∀ (m : ℕ) (l : OrderedMap String (AuthorState κ)), n ≤ m →
          l.mapFrom (fun i a => if i < n+0 then a.rotate (draw i) else a) m = l := by
        intro m l
        induction l generalizing m with
        | nil => exact fun _ => rfl
        | cons x l ihl =>
          intro hm
          rw [mapFrom, if_neg (by omega), ihl (m+1) (by omega)]
      rw [if_pos h, hnone, hkeep n _ (Nat.le_refl n)]
    · have hone : reached (e :: authors) = reached authors+1 := by
        simp [reached, h]
      have hreach : n+1+reached authors = n+(reached authors+1) := by omega
      rw [if_neg h, hone, mapFrom, if_pos (by omega)]
      dsimp only
      rw [ih, hreach]

theorem blockEach_key (dids : List String) (x : AuthorState κ) :
    (x.blockEach dids).broadcastKey = x.broadcastKey := by
  induction dids generalizing x with
  | nil => rfl
  | cons d dids ih => exact ih (x.block d)

theorem mem_blockEach (dids : List String) (x : AuthorState κ) (d : String) :
    d ∈ (x.blockEach dids).blockList ↔ d ∈ dids ∨ d ∈ x.blockList := by
  induction dids generalizing x with
  | nil => simp [AuthorState.blockEach]
  | cons e dids ih =>
    have hcons : x.blockEach (e :: dids) = (x.block e).blockEach dids := rfl
    rw [hcons, ih, AuthorState.block, mem_setInsert, List.mem_cons]
    tauto

/-- What a block leaves: nothing for an unknown author, the list alone where the epoch is
exhausted, else the list and a new key. -/
theorem blockAll_cases (draw : ℕ → κ) (c : BroadcastContext κ) (a : String) (dids : List String) :
    (c.authors.get a = none ∧ (c.blockAll a dids draw).1.isOk = false ∧
      (c.blockAll a dids draw).2 = c) ∨
    ∃ author, c.authors.get a = some author ∧
      ((blockGenerates c a = 0 ∧ (c.blockAll a dids draw).1.isOk = false ∧
        (c.blockAll a dids draw).2 = { c with
          authors := c.authors.adjust a (fun _ => author.blockEach dids) }) ∨
      (blockGenerates c a = 1 ∧ (c.blockAll a dids draw).1.isOk = true ∧
        (c.blockAll a dids draw).2 = { c with
          authors := c.authors.adjust a (fun _ => (author.blockEach dids).rotate (draw 0)) })) := by
  unfold blockAll blockGenerates
  cases hget : c.authors.get a with
  | none => exact Or.inl ⟨rfl, rfl, rfl⟩
  | some author =>
    refine Or.inr ⟨author, rfl, ?_⟩
    by_cases h : author.epoch = u64Max
    · left
      simp [h, Except.isOk, Except.toBool]
    · right
      simp [h, Except.isOk, Except.toBool]

/-- What a ban leaves: the record, the roster without the reader, and where no epoch is
exhausted a new key for every author. -/
theorem governanceBan_cases (draw : ℕ → κ) (c : BroadcastContext κ) (d : String) :
    (c.governanceBanSubscriber d draw).2.bannedSubscribers = setInsert d c.bannedSubscribers ∧
    ((rotationGenerates c = 0 ∧ (c.governanceBanSubscriber d draw).1.isOk = false ∧
      (c.governanceBanSubscriber d draw).2.authors = c.authors) ∨
    (rotationGenerates c = c.authors.length ∧ (c.governanceBanSubscriber d draw).1.isOk = true ∧
      (c.governanceBanSubscriber d draw).2.authors = c.authors.mapFrom (fun n a =>
        (if c.subscribers.contains d then a.block d else a).rotate (draw n)) 0)) := by
  unfold governanceBanSubscriber rotationGenerates
  by_cases h : c.authors.any (fun e => e.2.epoch = u64Max) = true
  · simp [h, Except.isOk, Except.toBool]
  · simp [h, Except.isOk, Except.toBool]

/-- What an operation leaves of the authors and of the bans, with the keys it draws. -/
inductive Effect (draw : ℕ → κ) (c : BroadcastContext κ) :
    Op → ℕ → OrderedMap String (AuthorState κ) → List String → Prop
  | kept (op : Op) (n : ℕ) (bans : List String) (hbans : c.bannedSubscribers ⊆ bans) :
    Effect draw c op n c.authors bans
  | added (a : String) (hnew : c.authors.get a = none) :
    Effect draw c (.addAuthor a) 1 (c.authors.orInsert a (.new a (draw 0))) c.bannedSubscribers
  | removed (a : String) :
    Effect draw c (.blockAuthor a) 0 (c.authors.removeKey a) c.bannedSubscribers
  | edited (op : Op) (n : ℕ) (a : String) (f : AuthorState κ → AuthorState κ)
      (hkey : ∀ x, c.authors.get a = some x → (f x).broadcastKey = x.broadcastKey)
      (hlist : ∀ x, c.authors.get a = some x → x.blockList ⊆ (f x).blockList) :
    Effect draw c op n (c.authors.adjust a f) c.bannedSubscribers
  | rekeyed (op : Op) (a : String) (author : AuthorState κ) (hget : c.authors.get a = some author)
      (x : AuthorState κ) (hkey : x.broadcastKey = draw 0) (hlist : author.blockList ⊆ x.blockList) :
    Effect draw c op 1 (c.authors.adjust a (fun _ => x)) c.bannedSubscribers
  | unblocked (a d : String) :
    Effect draw c (.unblockSubscriber a d) 0 (c.authors.adjust a (·.unblock d)) c.bannedSubscribers
  | excluded (ds : List String) :
    Effect draw c (.applyReadExclusions ds) 0
      (c.authors.map (fun e => (e.1, e.2.blockEach ds)))
      c.bannedSubscribers
  | unbanned (d : String) :
    Effect draw c (.governanceUnbanSubscriber d) 0
      (c.authors.map (fun e => (e.1, e.2.unblock d))) (c.bannedSubscribers.filter (· ≠ d))
  | rotated (op : Op) (n : ℕ) (f : ℕ → AuthorState κ → AuthorState κ) (bans : List String)
      (hbans : c.bannedSubscribers ⊆ bans)
      (hkey : ∀ i x, i < c.authors.length →
        (f i x).broadcastKey = x.broadcastKey ∨ i < n ∧ (f i x).broadcastKey = draw i)
      (hlist : ∀ i x, x.blockList ⊆ (f i x).blockList) :
    Effect draw c op n (c.authors.mapFrom f 0) bans

theorem blockAll_effect (op : Op) (a : String) (dids : List String) :
    Effect draw c op (blockGenerates c a) (c.blockAll a dids draw).2.authors
      (c.blockAll a dids draw).2.bannedSubscribers := by
  rcases blockAll_cases draw c a dids with
    ⟨-, -, hc⟩ | ⟨author, hget, ⟨-, -, hc⟩ | ⟨hone, -, hc⟩⟩
  · rw [hc]
    exact .kept op _ _ (List.Subset.refl _)
  · have hauthor : ∀ x, c.authors.get a = some x → x = author :=
      fun x hx => Option.some.inj (hx.symm.trans hget)
    rw [hc]
    dsimp only
    apply Effect.edited
    · intro x hx
      rw [hauthor x hx, blockEach_key]
    · intro x hx d hd
      rw [mem_blockEach, ← hauthor x hx]
      exact Or.inr hd
  · rw [hc, hone]
    apply Effect.rekeyed op a author hget
    · rfl
    · intro d hd
      exact (mem_blockEach dids author d).mpr (Or.inr hd)

theorem reserve_effect {a : String} {author : AuthorState κ} (op : Op) (n : ℕ)
    (h : c.reserve a author = .ok c') :
    Effect draw c op n c'.authors c'.bannedSubscribers := by
  obtain ⟨next, rfl⟩ := reserve_ok h
  exact .edited op n a (fun x => { x with nextSequence := next }) (fun _ _ => rfl)
    (fun _ _ => List.Subset.refl _)

theorem applyReadExclusions_authors (dids : List String) :
    (c.applyReadExclusions dids).authors =
      c.authors.map (fun e => (e.1, e.2.blockEach dids)) ∧
    (c.applyReadExclusions dids).bannedSubscribers = c.bannedSubscribers := by
  unfold BroadcastContext.applyReadExclusions
  induction dids generalizing c with
  | nil => exact ⟨(List.map_id' c.authors).symm, rfl⟩
  | cons d dids ih =>
    rw [List.foldl_cons, ih.1, ih.2, List.map_map]
    exact ⟨rfl, rfl⟩

theorem governanceBan_effect (op : Op) (d : String) :
    Effect draw c op (rotationGenerates c) (c.governanceBanSubscriber d draw).2.authors
      (c.governanceBanSubscriber d draw).2.bannedSubscribers := by
  have hbans : c.bannedSubscribers ⊆ setInsert d c.bannedSubscribers :=
    fun s hs => (mem_setInsert d s _).mpr (Or.inr hs)
  obtain ⟨hban, ⟨-, -, hc⟩ | ⟨hall, -, hc⟩⟩ := governanceBan_cases draw c d
  · rw [hc, hban]
    exact .kept op _ _ hbans
  · rw [hc, hban, hall]
    apply Effect.rotated op _ _ _ hbans
    · intro i x hi
      exact Or.inr ⟨hi, rfl⟩
    · intro i x s hs
      by_cases hd : c.subscribers.contains d = true
      · simpa [hd, AuthorState.rotate, AuthorState.block, mem_setInsert] using Or.inr hs
      · simpa [hd, AuthorState.rotate] using hs

theorem unsubscribe_effect (d : String) (rotateKeys : Bool) :
    Effect draw c (.unsubscribe d rotateKeys) (Op.generates c (.unsubscribe d rotateKeys))
      (c.unsubscribe d rotateKeys draw).2.authors
      (c.unsubscribe d rotateKeys draw).2.bannedSubscribers := by
  unfold BroadcastContext.unsubscribe
  by_cases hd : c.subscribers.contains d = true
  · cases rotateKeys with
    | false => simpa [hd] using .kept _ _ _ (List.Subset.refl _)
    | true =>
      simp only [hd, Bool.not_true, Bool.false_eq_true, if_false, if_true, Op.generates,
        Bool.and_self, rotateInOrder_authors, Nat.zero_add]
      apply Effect.rotated _ _ _ _ (List.Subset.refl _)
      · intro i x _
        by_cases hi : i < reached c.authors
        · rw [if_pos hi]
          exact Or.inr ⟨hi, rfl⟩
        · rw [if_neg hi]
          exact Or.inl rfl
      · intro i x s hs
        split <;> exact hs
  · simpa [hd] using .kept _ _ _ (List.Subset.refl _)

/-- Every operation has one of the effects. -/
theorem Op.apply_effect (op : Op) :
    Effect draw c op (op.generates c) (op.apply draw c).authors
      (op.apply draw c).bannedSubscribers := by
  -- A refused operation changes nothing.
  have hsame : ∀ op m, Effect draw c op m c.authors c.bannedSubscribers :=
    fun op m => .kept op m _ (List.Subset.refl _)
  cases op with
  | addAuthor a =>
    refine keptUnless_of (P := fun x => Effect draw c _ _ x.authors x.bannedSubscribers)
      (hsame _ _) ?_
    intro c' h
    obtain ⟨hnew, rfl⟩ := addAuthor_ok h
    simp only [Op.generates, hnew]
    exact .added a ((get_eq_none_iff _ _).mpr ((contains_eq_false_iff _ _).mp hnew))
  | blockAuthor a =>
    refine keptUnless_snd_of (P := fun x => Effect draw c _ _ x.authors x.bannedSubscribers)
      (hsame _ _) ?_
    intro _ c' h
    rw [blockAuthor_ok h]
    exact .removed a
  | subscribe d admittance t =>
    refine keptUnless_snd_of (P := fun x => Effect draw c _ _ x.authors x.bannedSubscribers)
      (hsame _ _) ?_
    intro _ c' h
    rw [(subscribe_ok h).2.1, (subscribe_ok h).2.2]
    exact hsame _ _
  | unsubscribe d rotateKeys => exact unsubscribe_effect d rotateKeys
  | blockSubscriber a d => exact blockAll_effect _ a [d]
  | blockSubscriberGroup a ds =>
    simp only [Op.apply, Op.generates, BroadcastContext.blockSubscriberGroup]
    by_cases h : ds.isEmpty = true
    · rw [if_pos h, if_pos h]
      exact hsame _ _
    · rw [if_neg h, if_neg h]
      exact blockAll_effect _ a ds
  | unblockSubscriber a d =>
    refine keptUnless_snd_of (P := fun x => Effect draw c _ _ x.authors x.bannedSubscribers)
      (hsame _ _) ?_
    intro _ c' h
    rw [unblockSubscriber_ok h]
    exact .unblocked a d
  | governanceBanSubscriber d => exact governanceBan_effect _ d
  | governanceUnbanSubscriber d => exact .unbanned d
  | rotateAllAuthorKeys =>
    refine keptUnless_snd_of (P := fun x => Effect draw c _ _ x.authors x.bannedSubscribers)
      (hsame _ _) ?_
    intro _ c' h
    obtain ⟨hall, rfl⟩ := rotateAllAuthorKeys_ok h
    rw [Op.generates, hall]
    exact .rotated _ _ _ _ (List.Subset.refl _) (fun i x hi => Or.inr ⟨hi, rfl⟩)
      (fun i x => List.Subset.refl _)
  | publish a t failure =>
    rcases publish_cases c a t failure with h | ⟨author, h⟩
    · rw [Op.apply, h]
      exact hsame _ _
    · exact reserve_effect _ _ h
  | reservePublish a =>
    refine keptUnless_snd_of (P := fun x => Effect draw c _ _ x.authors x.bannedSubscribers)
      (hsame _ _) ?_
    intro _ c' h
    obtain ⟨author, hres⟩ := reservePublish_ok h
    exact reserve_effect _ _ hres
  | applyReservedPublish a sequence t failure => exact hsame _ _
  | rollbackReservedPublish a sequence =>
    dsimp only [Op.apply, BroadcastContext.rollbackReservedPublish]
    apply Effect.edited
    · intro x _
      split <;> rfl
    · intro x _ d hd
      split <;> exact hd
  | applyReadExclusions ds =>
    rw [Op.apply, (applyReadExclusions_authors ds).1, (applyReadExclusions_authors ds).2]
    exact .excluded ds
  | handleKeyRequest a d pubkey failure => exact hsame _ _
  | restore =>
    rw [Op.apply, fromSnapshot_toSnapshot]
    exact hsame _ _

/-- Each author afterwards holds the key it held, or one of `n` drawn for it alone. -/
def Rekeyed (draw : ℕ → κ) (n : ℕ) (before after : OrderedMap String (AuthorState κ)) : Prop :=
  ∃ drew : String → ℕ → Prop, (∀ i a b, drew a i → drew b i → a = b) ∧
    ∀ did x, after.get did = some x →
      (∃ y, before.get did = some y ∧ x.broadcastKey = y.broadcastKey) ∨
        ∃ i < n, drew did i ∧ x.broadcastKey = draw i

def KeysKept (before after : OrderedMap String (AuthorState κ)) : Prop :=
  ∀ did x, after.get did = some x → ∃ y, before.get did = some y ∧ x.broadcastKey = y.broadcastKey

variable {n : ℕ} {before after : OrderedMap String (AuthorState κ)}

theorem keysKept_refl (authors : OrderedMap String (AuthorState κ)) : KeysKept authors authors :=
  fun _ x h => ⟨x, h, rfl⟩

theorem KeysKept.rekeyed (h : KeysKept before after) : Rekeyed draw n before after :=
  ⟨fun _ _ => False, fun _ _ _ hf => hf.elim, fun did x hx => Or.inl (h did x hx)⟩

theorem keysKept_removeKey (authors : OrderedMap String (AuthorState κ)) (a : String) :
    KeysKept authors (authors.removeKey a) := by
  intro did x hx
  rw [get_removeKey] at hx
  by_cases h : did = a
  · rw [if_pos h] at hx
    cases hx
  · rw [if_neg h] at hx
    exact ⟨x, hx, rfl⟩

theorem keysKept_adjust (authors : OrderedMap String (AuthorState κ)) (a : String)
    (f : AuthorState κ → AuthorState κ)
    (hf : ∀ x, authors.get a = some x → (f x).broadcastKey = x.broadcastKey) :
    KeysKept authors (authors.adjust a f) := by
  intro did x hx
  rw [get_adjust] at hx
  by_cases h : did = a
  · rw [if_pos h] at hx
    obtain ⟨y, hy, rfl⟩ := Option.map_eq_some_iff.mp hx
    exact ⟨y, h ▸ hy, hf y hy⟩
  · rw [if_neg h] at hx
    exact ⟨x, hx, rfl⟩

theorem keysKept_map (authors : OrderedMap String (AuthorState κ))
    (f : AuthorState κ → AuthorState κ) (hf : ∀ x, (f x).broadcastKey = x.broadcastKey) :
    KeysKept authors (authors.map (fun e => (e.1, f e.2))) := by
  intro did x hx
  rw [get_map] at hx
  obtain ⟨y, hy, rfl⟩ := Option.map_eq_some_iff.mp hx
  exact ⟨y, hy, hf y⟩

/-- The authors are rewritten in order, some of them with the key drawn at their place. -/
theorem rekeyed_mapFrom (authors : OrderedMap String (AuthorState κ))
    (f : ℕ → AuthorState κ → AuthorState κ)
    (hf : ∀ i x, i < authors.length →
      (f i x).broadcastKey = x.broadcastKey ∨ i < n ∧ (f i x).broadcastKey = draw i) :
    Rekeyed draw n authors (authors.mapFrom f 0) := by
  refine ⟨fun did i => (∃ x, authors.get did = some x) ∧ authors.position did = i, ?_, ?_⟩
  · rintro i a b ⟨⟨x, hx⟩, ha⟩ ⟨⟨y, hy⟩, hb⟩
    exact position_injective hx hy (ha.trans hb.symm)
  · intro did x hx
    rw [get_mapFrom, Nat.zero_add] at hx
    obtain ⟨y, hy, rfl⟩ := Option.map_eq_some_iff.mp hx
    rcases hf (authors.position did) y (position_lt hy) with hkept | ⟨hlt, hdrawn⟩
    · exact Or.inl ⟨y, hy, hkept⟩
    · exact Or.inr ⟨_, hlt, ⟨⟨y, hy⟩, rfl⟩, hdrawn⟩

/-- One author alone has a key drawn for it. -/
theorem rekeyed_one (a : String) (hn : 0 < n)
    (hrest : ∀ did x, did ≠ a → after.get did = some x → before.get did = some x)
    (ha : ∀ x, after.get a = some x → x.broadcastKey = draw 0) :
    Rekeyed draw n before after := by
  refine ⟨fun did i => did = a ∧ i = 0, ?_, ?_⟩
  · rintro i x y ⟨rfl, -⟩ ⟨rfl, -⟩
    rfl
  · intro did x hx
    by_cases h : did = a
    · subst h
      exact Or.inr ⟨0, hn, ⟨rfl, rfl⟩, ha x hx⟩
    · exact Or.inl ⟨x, hrest did x h hx, rfl⟩

variable {bans : List String} {op : Op}

/-- No operation puts a key in an author's hands but the one it held or a drawn one. -/
theorem Effect.keys (h : Effect draw c op n after bans) : Rekeyed draw n c.authors after := by
  cases h with
  | kept => exact (keysKept_refl _).rekeyed
  | added a hnew =>
    apply rekeyed_one a Nat.one_pos
    · intro did x hne hx
      simpa [get_orInsert, hne] using hx
    · intro x hx
      simp only [get_orInsert, if_pos, hnew, Option.getD_none, Option.some.injEq] at hx
      rw [← hx]
      rfl
  | removed a => exact (keysKept_removeKey c.authors a).rekeyed
  | edited _ _ a f hkey => exact (keysKept_adjust c.authors a f hkey).rekeyed
  | rekeyed _ a author hget x hkey =>
    apply rekeyed_one a Nat.one_pos
    · intro did y hne hy
      simpa [get_adjust, hne] using hy
    · intro y hy
      simp only [get_adjust, if_pos, hget, Option.map_some, Option.some.injEq] at hy
      rw [← hy, hkey]
  | unblocked a d => exact (keysKept_adjust c.authors a (·.unblock d) (fun _ _ => rfl)).rekeyed
  | excluded ds => exact (keysKept_map c.authors _ (blockEach_key ds)).rekeyed
  | unbanned d => exact (keysKept_map c.authors (·.unblock d) (fun _ => rfl)).rekeyed
  | rotated _ _ f _ _ hkey => exact rekeyed_mapFrom c.authors f hkey

/-- A key is sent to a reader neither banned nor blocked, and it is the author's own. -/
theorem handleKeyRequest_grant {a d : String} {pubkey : List UInt8} {failure : Option String}
    {key : κ} {wrapping : List UInt8} {epoch : ℕ}
    (h : c.handleKeyRequest a d pubkey failure = .grant key wrapping epoch) :
    d ∉ c.bannedSubscribers ∧
      ∃ x, c.authors.get a = some x ∧ key = x.broadcastKey ∧ d ∉ x.blockList := by
  unfold BroadcastContext.handleKeyRequest at h
  by_cases hban : d ∈ c.bannedSubscribers
  · simp [hban] at h
  · refine ⟨hban, ?_⟩
    rw [if_neg hban] at h
    cases hget : c.authors.get a with
    | none => simp [hget] at h
    | some x =>
      rw [hget] at h
      by_cases hblock : d ∈ x.blockList
      · simp [hblock] at h
      · refine ⟨x, rfl, ?_, hblock⟩
        simp only [hblock, if_false] at h
        split at h
        · cases h
        · split at h
          · cases h
          · cases failure with
            | some reason => cases h
            | none =>
              injection h with hkey
              exact hkey.symm

theorem Op.mem_granted {op : Op} {g : Grant κ} (h : g ∈ op.granted c) :
    g.requesterDid ∉ c.bannedSubscribers ∧
      ∃ x, c.authors.get g.authorDid = some x ∧ g.key = x.broadcastKey ∧
        g.requesterDid ∉ x.blockList := by
  cases op with
  | handleKeyRequest a d pubkey failure =>
    simp only [Op.granted] at h
    split at h
    · rename_i key wrapping epoch hgrant
      rw [List.mem_singleton.mp h]
      exact handleKeyRequest_grant hgrant
    · cases h
  | _ => cases h

theorem sealWith_ok {author : AuthorState κ} {sequence t : ℕ} {failure : Option String}
    {e : BroadcastEnvelope κ} (h : c.sealWith author sequence t failure = .ok e) :
    e.key = author.broadcastKey := by
  cases failure with
  | some reason => cases h
  | none =>
    cases h
    rfl

theorem publish_ok {a : String} {t : ℕ} {failure : Option String} {e : BroadcastEnvelope κ}
    (h : (c.publish a t failure).1 = .ok e) :
    ∃ x, c.authors.get a = some x ∧ e.key = x.broadcastKey := by
  unfold BroadcastContext.publish at h
  cases hget : c.authors.get a with
  | none => simp [hget] at h
  | some author =>
    cases hres : c.reserve a author with
    | error err => simp [hget, hres] at h
    | ok reserved =>
      simp only [hget, hres] at h
      exact ⟨author, rfl, sealWith_ok h⟩

theorem applyReservedPublish_ok {a : String} {sequence t : ℕ} {failure : Option String}
    {e : BroadcastEnvelope κ} (h : c.applyReservedPublish a sequence t failure = .ok e) :
    ∃ x, c.authors.get a = some x ∧ e.key = x.broadcastKey := by
  unfold BroadcastContext.applyReservedPublish at h
  simp only [bind_ok_iff, okOr_ok_iff] at h
  obtain ⟨x, hx, hseal⟩ := h
  exact ⟨x, hx, sealWith_ok hseal⟩

theorem mem_sealing {a : String} {r : Except ContextError (BroadcastEnvelope κ)} {s : Sealing κ}
    (h : s ∈ sealing a r) : s.authorDid = a ∧ r = .ok s.envelope := by
  cases r with
  | error e => cases h
  | ok e =>
    rw [List.mem_singleton.mp h]
    exact ⟨rfl, rfl⟩

theorem Op.mem_seals {op : Op} {s : Sealing κ} (h : s ∈ op.seals c) :
    ∃ x, c.authors.get s.authorDid = some x ∧ s.envelope.key = x.broadcastKey := by
  cases op with
  | publish a t failure =>
    obtain ⟨ha, hs⟩ := mem_sealing h
    rw [ha]
    exact publish_ok hs
  | applyReservedPublish a sequence t failure =>
    obtain ⟨ha, hs⟩ := mem_sealing h
    rw [ha]
    exact applyReservedPublish_ok hs
  | _ => cases h

/-- A ban stands until it is lifted. -/
theorem Effect.banned (h : Effect draw c op n after bans) {d : String}
    (hop : op ≠ .governanceUnbanSubscriber d) (hd : d ∈ c.bannedSubscribers) : d ∈ bans := by
  cases h with
  | kept _ _ _ hbans => exact hbans hd
  | unbanned s =>
    have hne : d ≠ s := fun he => hop (he ▸ rfl)
    simpa [hne] using hd
  | rotated _ _ _ _ hbans => exact hbans hd
  | _ => exact hd

/-- The author `a` is there and blocks the reader. -/
def Blocks (authors : OrderedMap String (AuthorState κ)) (a d : String) : Prop :=
  ∃ x, authors.get a = some x ∧ d ∈ x.blockList

theorem AuthorState.mem_unblock {s d : String} {x : AuthorState κ} (hne : d ≠ s)
    (hd : d ∈ x.blockList) : d ∈ (x.unblock s).blockList := by
  simpa [AuthorState.unblock, hne] using hd

/-- A block stands until the author lifts it, the reader is unbanned or the author goes. -/
theorem Effect.blocks (h : Effect draw c op n after bans) {a d : String}
    (hunblock : op ≠ .unblockSubscriber a d) (hunban : op ≠ .governanceUnbanSubscriber d)
    (hgone : op ≠ .blockAuthor a) (hd : Blocks c.authors a d) : Blocks after a d := by
  obtain ⟨x, hx, hd⟩ := hd
  -- Only an unblock, an unban or the removal of the author shortens a block list.
  cases h with
  | kept => exact ⟨x, hx, hd⟩
  | added b hnew =>
    have hne : a ≠ b := by
      intro he
      rw [← he, hx] at hnew
      cases hnew
    exact ⟨x, by rw [get_orInsert, if_neg hne, hx], hd⟩
  | removed b =>
    have hne : a ≠ b := fun he => hgone (he ▸ rfl)
    exact ⟨x, by rw [get_removeKey, if_neg hne, hx], hd⟩
  | edited _ _ b f _ hlist =>
    by_cases he : a = b
    · subst he
      exact ⟨f x, by rw [get_adjust, if_pos rfl, hx, Option.map_some], hlist x hx hd⟩
    · exact ⟨x, by rw [get_adjust, if_neg he, hx], hd⟩
  | rekeyed _ b author hget y _ hlist =>
    by_cases he : a = b
    · subst he
      rw [Option.some.inj (hx.symm.trans hget)] at hd
      exact ⟨y, by rw [get_adjust, if_pos rfl, hx, Option.map_some], hlist hd⟩
    · exact ⟨x, by rw [get_adjust, if_neg he, hx], hd⟩
  | unblocked b s =>
    by_cases he : a = b
    · subst he
      have hne : d ≠ s := fun hs => hunblock (hs ▸ rfl)
      exact ⟨x.unblock s, by rw [get_adjust, if_pos rfl, hx, Option.map_some],
        AuthorState.mem_unblock hne hd⟩
    · exact ⟨x, by rw [get_adjust, if_neg he, hx], hd⟩
  | excluded ds =>
    exact ⟨_, by rw [get_map, hx, Option.map_some], (mem_blockEach ds x d).mpr (Or.inr hd)⟩
  | unbanned s =>
    have hne : d ≠ s := fun hs => hunban (hs ▸ rfl)
    exact ⟨x.unblock s, by rw [get_map, hx, Option.map_some], AuthorState.mem_unblock hne hd⟩
  | rotated _ _ f _ _ _ hlist =>
    exact ⟨f (c.authors.position a) x, by rw [get_mapFrom, hx, Option.map_some, Nat.zero_add],
      hlist _ x hd⟩

end Run

end ScpCore.Broadcast
