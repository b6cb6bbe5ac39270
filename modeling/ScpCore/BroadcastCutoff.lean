import ScpCore.BroadcastEffect

/-! Runs of a broadcast context, with the keys handed to readers and the envelopes sealed
on the way. A reader who is banned, or whom an author blocks, is sent no key for as long as
that stands, and nothing is sealed meanwhile under a key the reader was ever sent. -/

namespace ScpCore.Broadcast

open OrderedMap BroadcastContext

section Run
variable {κ : Type}

/-- A context with its history: how many keys were generated, the keys sent to readers and
the envelopes sealed. -/
structure World (κ : Type) where
  ctx : BroadcastContext κ
  made : ℕ
  grants : List (Grant κ)
  sealings : List (Sealing κ)

/-- The keys an operation draws next, where `gen i` is the `i`-th key generated. -/
def World.draw (gen : ℕ → κ) (w : World κ) (i : ℕ) : κ := gen (w.made+i)

def step (gen : ℕ → κ) (w : World κ) (op : Op) : World κ :=
  ⟨op.apply (w.draw gen) w.ctx, w.made+op.generates w.ctx,
    w.grants ++ op.granted w.ctx, w.sealings ++ op.seals w.ctx⟩

def run (gen : ℕ → κ) (w : World κ) (ops : List Op) : World κ := ops.foldl (step gen) w

/-- The keys still to be generated, up to the `n`-th, are new: no two of the first `n` are
the same, and none to come is held by an author or was sent to a reader. -/
structure Fresh (gen : ℕ → κ) (n : ℕ) (w : World κ) : Prop where
  apart : ∀ i j, i < n → j < n → gen i = gen j → i = j
  unheld : ∀ i, w.made ≤ i → i < n → ∀ did a, w.ctx.authors.get did = some a →
    a.broadcastKey ≠ gen i
  unsent : ∀ i, w.made ≤ i → i < n → ∀ g ∈ w.grants, g.key ≠ gen i

variable {gen : ℕ → κ} {w : World κ} {c : BroadcastContext κ} {n : ℕ}

/-- After a step an author holds its key of before or a key generated for it alone. -/
theorem step_keys (gen : ℕ → κ) (w : World κ) (op : Op) :
    Rekeyed (w.draw gen) (op.generates w.ctx) w.ctx.authors
      (step gen w op).ctx.authors :=
  (Op.apply_effect op).keys

theorem step_made_le (gen : ℕ → κ) (w : World κ) (op : Op) : w.made ≤ (step gen w op).made :=
  Nat.le_add_right _ _

theorem run_made_le (gen : ℕ → κ) (w : World κ) (ops : List Op) : w.made ≤ (run gen w ops).made := by
  induction ops generalizing w with
  | nil => exact Nat.le_refl _
  | cons op ops ih => exact (step_made_le gen w op).trans (ih (step gen w op))

theorem Fresh.step (h : Fresh gen n w) (op : Op) : Fresh gen n (step gen w op) where
  apart := h.apart
  unheld := by
    intro i hmade hi did x hx
    have hbefore := (step_made_le gen w op).trans hmade
    obtain ⟨drew, -, hkeys⟩ := step_keys gen w op
    rcases hkeys did x hx with ⟨y, hy, hkey⟩ | ⟨j, hj, -, hkey⟩
    · rw [hkey]
      exact h.unheld i hbefore hi did y hy
    · intro he
      have hji := h.apart (w.made+j) i (by simp only [Broadcast.step] at hmade; omega) hi
        (hkey.symm.trans he)
      simp only [Broadcast.step] at hmade
      omega
  unsent := by
    intro i hmade hi g hg
    have hbefore := (step_made_le gen w op).trans hmade
    rcases List.mem_append.mp hg with hold | hnew
    · exact h.unsent i hbefore hi g hold
    · obtain ⟨-, x, hx, hkey, -⟩ := Op.mem_granted hnew
      rw [hkey]
      exact h.unheld i hbefore hi _ x hx

theorem Fresh.run (h : Fresh gen n w) (ops : List Op) : Fresh gen n (run gen w ops) := by
  induction ops generalizing w with
  | nil => exact h
  | cons op ops ih => exact ih (h.step op)

/-- The keys in `shut` are the guarded authors' alone: they hold them now, they sealed all
they published since under one of them, and none was sent to the reader. -/
structure Shut (gen : ℕ → κ) (guarded : String → Prop) (d : String) (since : ℕ) (w : World κ)
    (shut : Set κ) : Prop where
  held : ∀ did x, w.ctx.authors.get did = some x → (x.broadcastKey ∈ shut ↔ guarded did)
  made : ∀ k ∈ shut, ∃ i < w.made, k = gen i
  unsent : ∀ g ∈ w.grants, g.requesterDid = d → g.key ∉ shut
  since_le : since ≤ w.sealings.length
  sealed_ : ∀ s ∈ w.sealings.drop since, guarded s.authorDid → s.envelope.key ∈ shut

variable {guarded : String → Prop} {d : String} {since : ℕ} {shut : Set κ}

/-- The reader is refused by each guarded author. -/
def Refused (guarded : String → Prop) (d : String) (c : BroadcastContext κ) : Prop :=
  ∀ a x, guarded a → c.authors.get a = some x → d ∈ c.bannedSubscribers ∨ d ∈ x.blockList

/-- The keys of the guarded authors after a step join those that are shut. -/
def shutAfter (gen : ℕ → κ) (guarded : String → Prop) (w : World κ) (op : Op) (shut : Set κ) :
    Set κ :=
  shut ∪ {k | ∃ a x, guarded a ∧ (step gen w op).ctx.authors.get a = some x ∧ x.broadcastKey = k}

/-- What joins is shut already or was generated in the step. -/
theorem Shut.mem_shutAfter (h : Shut gen guarded d since w shut) {op : Op} {k : κ}
    (hk : k ∈ shutAfter gen guarded w op shut) :
    k ∈ shut ∨ ∃ i < op.generates w.ctx, k = gen (w.made+i) := by
  rcases hk with hk | ⟨a, x, ha, hx, rfl⟩
  · exact Or.inl hk
  · obtain ⟨drew, -, hkeys⟩ := step_keys gen w op
    rcases hkeys a x hx with ⟨y, hy, hkey⟩ | ⟨i, hi, -, hkey⟩
    · left
      rw [hkey]
      exact (h.held a y hy).mpr ha
    · exact Or.inr ⟨i, hi, hkey⟩

/-- A key an author held or a reader was sent before the step does not join in it. -/
theorem Shut.mem_of_mem_shutAfter (h : Shut gen guarded d since w shut) {op : Op} {k : κ}
    (hold : ∀ i < op.generates w.ctx, k ≠ gen (w.made+i))
    (hk : k ∈ shutAfter gen guarded w op shut) : k ∈ shut := by
  rcases h.mem_shutAfter hk with hk | ⟨i, hi, he⟩
  · exact hk
  · exact absurd he (hold i hi)

theorem Shut.held_step (h : Shut gen guarded d since w shut) {op : Op} (hfresh : Fresh gen n w)
    (hn : (step gen w op).made ≤ n) {did : String} {x : AuthorState κ}
    (hx : (step gen w op).ctx.authors.get did = some x)
    (hin : x.broadcastKey ∈ shutAfter gen guarded w op shut) : guarded did := by
  have hlt : ∀ i < op.generates w.ctx, w.made+i < n := by
    intro i hi
    simp only [step] at hn
    omega
  obtain ⟨drew, halone, hkeys⟩ := step_keys gen w op
  rcases hkeys did x hx with ⟨y, hy, hkey⟩ | ⟨i, hi, hdrew, hkey⟩
  · -- a key held before the step was shut before it
    rw [hkey] at hin
    have hold : ∀ i < op.generates w.ctx, y.broadcastKey ≠ gen (w.made+i) :=
      fun i hi => hfresh.unheld _ (Nat.le_add_right _ _) (hlt i hi) did y hy
    exact (h.held did y hy).mp (h.mem_of_mem_shutAfter hold hin)
  · rcases hin with hin | ⟨a, z, ha, hz, he⟩
    · obtain ⟨j, hj, he⟩ := h.made _ hin
      have hij := hfresh.apart (w.made+i) j (hlt i hi) (by have := hlt i hi; omega)
        (hkey.symm.trans he)
      omega
    · -- the guarded author whose key this is drew it too
      rcases hkeys a z hz with ⟨y, hy, hzy⟩ | ⟨j, hj, hdrew', hzj⟩
      · exact absurd (hzy.symm.trans (he.trans hkey))
          (hfresh.unheld _ (Nat.le_add_right _ _) (hlt i hi) a y hy)
      · have hij := hfresh.apart (w.made+i) (w.made+j) (hlt i hi) (hlt j hj)
          (hkey.symm.trans (he.symm.trans hzj))
        have hij' : i = j := by omega
        subst hij'
        rw [halone i did a hdrew hdrew']
        exact ha

/-- While the reader is refused, a step keeps the keys out of its reach. -/
theorem Shut.step (h : Shut gen guarded d since w shut) (op : Op) (hfresh : Fresh gen n w)
    (hn : (step gen w op).made ≤ n) (hrefused : Refused guarded d w.ctx) :
    Shut gen guarded d since (step gen w op) (shutAfter gen guarded w op shut) where
  held := by
    intro did x hx
    exact ⟨h.held_step hfresh hn hx, fun hg => Or.inr ⟨did, x, hg, hx, rfl⟩⟩
  made := by
    intro k hk
    rcases h.mem_shutAfter hk with hk | ⟨i, hi, rfl⟩
    · obtain ⟨i, hi, rfl⟩ := h.made k hk
      exact ⟨i, Nat.lt_of_lt_of_le hi (step_made_le gen w op), rfl⟩
    · exact ⟨w.made+i, Nat.add_lt_add_left hi w.made, rfl⟩
  unsent := by
    have hlt : ∀ i < op.generates w.ctx, w.made+i < n := by
      intro i hi
      simp only [Broadcast.step] at hn
      omega
    intro g hg hd hin
    rcases List.mem_append.mp hg with hg | hg
    -- A key drawn by this step was sent to nobody before it.
    · have hold : ∀ i < op.generates w.ctx, g.key ≠ gen (w.made+i) :=
        fun i hi => hfresh.unsent _ (Nat.le_add_right _ _) (hlt i hi) g hg
      exact h.unsent g hg hd (h.mem_of_mem_shutAfter hold hin)
    · obtain ⟨hban, x, hx, hkey, hblock⟩ := Op.mem_granted hg
      rw [hd] at hban hblock
      rw [hkey] at hin
      have hold : ∀ i < op.generates w.ctx, x.broadcastKey ≠ gen (w.made+i) :=
        fun i hi => hfresh.unheld _ (Nat.le_add_right _ _) (hlt i hi) _ x hx
      have hguarded := (h.held _ x hx).mp (h.mem_of_mem_shutAfter hold hin)
      rcases hrefused _ x hguarded hx with hr | hr
      · exact hban hr
      · exact hblock hr
  since_le := by
    rw [Broadcast.step, List.length_append]
    exact h.since_le.trans (Nat.le_add_right _ _)
  sealed_ := by
    intro s hs hg
    rw [Broadcast.step, List.drop_append_of_le_length h.since_le, List.mem_append] at hs
    left
    rcases hs with hs | hs
    · exact h.sealed_ s hs hg
    · obtain ⟨x, hx, hkey⟩ := Op.mem_seals hs
      rw [hkey]
      exact (h.held _ x hx).mpr hg

/-- Over a run in which the reader stays refused. -/
theorem Shut.run (stands : BroadcastContext κ → Prop)
    (hrefused : ∀ c, stands c → Refused guarded d c) {ops : List Op}
    (hstands : ∀ op ∈ ops, ∀ (draw : ℕ → κ) c, stands c → stands (op.apply draw c))
    (h : Shut gen guarded d since w shut) (hfresh : Fresh gen n w)
    (hn : (run gen w ops).made ≤ n) (hw : stands w.ctx) :
    stands (run gen w ops).ctx ∧ ∃ shut', Shut gen guarded d since (run gen w ops) shut' := by
  induction ops generalizing w shut with
  | nil => exact ⟨hw, shut, h⟩
  | cons op ops ih =>
    have hstep : (Broadcast.step gen w op).made ≤ n := (run_made_le gen _ ops).trans hn
    exact ih (fun o ho => hstands o (List.mem_cons_of_mem op ho))
      (h.step op hfresh hstep (hrefused w.ctx hw)) (hfresh.step op) hn
      (hstands op List.mem_cons_self _ w.ctx hw)

/-- What was published by guarded authors meanwhile is under no key sent to the reader. -/
theorem Shut.unreadable (h : Shut gen guarded d since w shut) {s : Sealing κ} {g : Grant κ}
    (hs : s ∈ w.sealings.drop since) (hs' : guarded s.authorDid) (hg : g ∈ w.grants)
    (hd : g.requesterDid = d) : g.key ≠ s.envelope.key := by
  intro he
  apply h.unsent g hg hd
  rw [he]
  exact h.sealed_ s hs hs'

/-- The guarded authors have just been given new keys, and the others kept theirs. -/
theorem shut_start (hfresh : Fresh gen n w) {op : Op} (hn : (step gen w op).made ≤ n)
    (hgrants : op.granted w.ctx = []) (hseals : op.seals w.ctx = [])
    (hnew : ∀ did x, guarded did → (step gen w op).ctx.authors.get did = some x →
      ∃ i < op.generates w.ctx, x.broadcastKey = w.draw gen i)
    (hrest : ∀ did x, ¬ guarded did → (step gen w op).ctx.authors.get did = some x →
      w.ctx.authors.get did = some x) :
    Shut gen guarded d w.sealings.length (step gen w op)
      {k | ∃ i < op.generates w.ctx, k = w.draw gen i} where
  held := by
    intro did x hx
    constructor
    · rintro ⟨i, hi, hkey⟩
      by_contra hg
      refine hfresh.unheld (w.made+i) (Nat.le_add_right _ _) ?_ did x (hrest did x hg hx) hkey
      exact Nat.lt_of_lt_of_le (Nat.add_lt_add_left hi w.made) hn
    · exact fun hg => hnew did x hg hx
  made := by
    rintro k ⟨i, hi, rfl⟩
    exact ⟨w.made+i, Nat.add_lt_add_left hi w.made, rfl⟩
  unsent := by
    rintro g hg - ⟨i, hi, hkey⟩
    rw [Broadcast.step, hgrants, List.append_nil] at hg
    refine hfresh.unsent (w.made+i) (Nat.le_add_right _ _) ?_ g hg hkey
    exact Nat.lt_of_lt_of_le (Nat.add_lt_add_left hi w.made) hn
  since_le := by
    rw [Broadcast.step, hseals, List.append_nil]
  sealed_ := by
    intro s hs
    rw [Broadcast.step, hseals, List.append_nil, List.drop_length] at hs
    cases hs

/-- A ban that succeeds gives every author a new key. -/
theorem shut_ban (hfresh : Fresh gen n w)
    (hn : (step gen w (.governanceBanSubscriber d)).made ≤ n)
    (hok : Op.succeeds (w.draw gen) w.ctx (.governanceBanSubscriber d) = true) :
    d ∈ (step gen w (.governanceBanSubscriber d)).ctx.bannedSubscribers ∧
      ∃ shut, Shut gen (fun _ => True) d w.sealings.length
        (step gen w (.governanceBanSubscriber d)) shut := by
  obtain ⟨hban, ⟨-, hfail, -⟩ | ⟨hall, -, hauthors⟩⟩ := governanceBan_cases (w.draw gen) w.ctx d
  · exact absurd (hfail.symm.trans hok) Bool.false_ne_true
  · refine ⟨?_, _, shut_start hfresh hn rfl rfl ?_ ?_⟩
    · rw [Broadcast.step, Op.apply, hban, mem_setInsert]
      exact Or.inl rfl
    · intro did x _ hx
      rw [Broadcast.step, Op.apply, hauthors, get_mapFrom, Nat.zero_add] at hx
      obtain ⟨y, hy, rfl⟩ := Option.map_eq_some_iff.mp hx
      exact ⟨_, by rw [Op.generates, hall]; exact position_lt hy, rfl⟩
    · intro did x hg
      exact absurd trivial hg

theorem Op.blocks.effect {a d : String} {op : Op} (hop : op.blocks a d) :
    ∃ ds, d ∈ ds ∧ ∀ (draw : ℕ → κ) (c : BroadcastContext κ),
      op.succeeds draw c = (c.blockAll a ds draw).1.isOk ∧
      op.apply draw c = (c.blockAll a ds draw).2 ∧ op.generates c = blockGenerates c a ∧
      op.granted c = [] ∧ op.seals c = [] := by
  rcases hop with rfl | ⟨ds, hd, rfl⟩
  · exact ⟨[d], List.mem_singleton_self d, fun draw c => ⟨rfl, rfl, rfl, rfl, rfl⟩⟩
  · have hne : ds.isEmpty = false := by
      rw [List.isEmpty_eq_false_iff_exists_mem]
      exact ⟨d, hd⟩
    refine ⟨ds, hd, fun draw c => ?_⟩
    simp [Op.succeeds, Op.apply, Op.generates, Op.granted, Op.seals,
      BroadcastContext.blockSubscriberGroup, hne]

/-- A block that succeeds gives the author a new key. -/
theorem shut_block {a : String} {op : Op} (hop : op.blocks a d) (hfresh : Fresh gen n w)
    (hn : (step gen w op).made ≤ n) (hok : op.succeeds (w.draw gen) w.ctx = true) :
    Blocks (step gen w op).ctx.authors a d ∧
      ∃ shut, Shut gen (· = a) d w.sealings.length (step gen w op) shut := by
  obtain ⟨ds, hd, heffect⟩ := hop.effect
  obtain ⟨hsucceeds, happly, hgenerates, hgrants, hseals⟩ := heffect (w.draw gen) w.ctx
  rw [hsucceeds] at hok
  rcases blockAll_cases (w.draw gen) w.ctx a ds with
    ⟨-, hfail, -⟩ | ⟨author, hget, ⟨-, hfail, -⟩ | ⟨hone, -, hctx⟩⟩
  · exact absurd (hfail.symm.trans hok) Bool.false_ne_true
  · exact absurd (hfail.symm.trans hok) Bool.false_ne_true
  · have hafter : (Broadcast.step gen w op).ctx.authors = w.ctx.authors.adjust a
        (fun _ => (author.blockEach ds).rotate (w.draw gen 0)) := by
      rw [Broadcast.step, happly, hctx]
    have ha : (Broadcast.step gen w op).ctx.authors.get a =
        some ((author.blockEach ds).rotate (w.draw gen 0)) := by
      rw [hafter, get_adjust, if_pos rfl, hget, Option.map_some]
    refine ⟨⟨_, ha, (mem_blockEach ds author d).mpr (Or.inl hd)⟩, _,
      shut_start hfresh hn hgrants hseals ?_ ?_⟩
    · rintro did x rfl hx
      rw [← Option.some.inj (ha.symm.trans hx), hgenerates, hone]
      exact ⟨0, Nat.one_pos, rfl⟩
    · intro did x hne hx
      rwa [hafter, get_adjust, if_neg hne] at hx

theorem handleKeyRequest_of_banned {a : String} (h : d ∈ c.bannedSubscribers)
    (pubkey : List UInt8) (failure : Option String) :
    c.handleKeyRequest a d pubkey failure = .deny keyRequestDenyReason := by
  rw [BroadcastContext.handleKeyRequest, if_pos h]

theorem handleKeyRequest_of_blocks {a : String} (h : Blocks c.authors a d)
    (pubkey : List UInt8) (failure : Option String) :
    c.handleKeyRequest a d pubkey failure = .deny keyRequestDenyReason := by
  obtain ⟨x, hx, hd⟩ := h
  unfold BroadcastContext.handleKeyRequest
  by_cases hban : d ∈ c.bannedSubscribers
  · rw [if_pos hban]
  · simp only [if_neg hban, hx, if_pos hd]

theorem subscribe_of_banned (h : d ∈ c.bannedSubscribers) (admittance : Admittance) (t : ℕ) :
    c.subscribe d admittance t = .error (.permissionDenied subscribeDenyReason) := by
  simp [BroadcastContext.subscribe, require, h, bind, Except.bind]

theorem run_append (w : World κ) (before after : List Op) :
    run gen w (before ++ after) = run gen (run gen w before) after :=
  List.foldl_append

/-- A reader stays cut off. From a ban that succeeds until it is lifted the reader is
refused by every author, and nothing sealed meanwhile is under a key it was sent before or in
that time; from a block that succeeds the same holds of the one author until it unblocks the
reader, the reader is unbanned or the author is removed. What is granted after the lift is not
spoken of. -/
theorem cut_off_reader_stays_cut_off (gen : ℕ → κ) (w : World κ) (before during : List Op)
    (cut : Op) (d : String) (hfresh : Fresh gen (run gen w (before ++ cut :: during)).made w)
    (hcut : cut.succeeds ((run gen w before).draw gen) (run gen w before).ctx = true) :
    (cut = .governanceBanSubscriber d → Op.governanceUnbanSubscriber d ∉ during →
      (∀ admittance t, (run gen w (before ++ cut :: during)).ctx.subscribe d admittance t =
        .error (.permissionDenied subscribeDenyReason)) ∧
      (∀ a pubkey failure,
        (run gen w (before ++ cut :: during)).ctx.handleKeyRequest a d pubkey failure =
          .deny keyRequestDenyReason) ∧
      ∀ s ∈ (run gen w (before ++ cut :: during)).sealings.drop (run gen w before).sealings.length,
        ∀ g ∈ (run gen w (before ++ cut :: during)).grants, g.requesterDid = d →
          g.key ≠ s.envelope.key) ∧
    ∀ a, cut.blocks a d →
      (∀ op ∈ during, op ≠ .unblockSubscriber a d ∧ op ≠ .governanceUnbanSubscriber d ∧
        op ≠ .blockAuthor a) →
      (∀ pubkey failure,
        (run gen w (before ++ cut :: during)).ctx.handleKeyRequest a d pubkey failure =
          .deny keyRequestDenyReason) ∧
      ∀ s ∈ (run gen w (before ++ cut :: during)).sealings.drop (run gen w before).sealings.length,
        s.authorDid = a → ∀ g ∈ (run gen w (before ++ cut :: during)).grants,
          g.requesterDid = d → g.key ≠ s.envelope.key := by
  have hrun : run gen w (before ++ cut :: during) =
      run gen (step gen (run gen w before) cut) during := by
    rw [run_append]
    rfl
  have hbefore := hfresh.run before
  rw [hrun] at hbefore ⊢
  generalize hw : run gen w before = at_ at hcut hbefore ⊢
  have hstep := run_made_le gen (step gen at_ cut) during
  constructor
  -- A ban shuts the reader out of every author, a block out of the one.
  · rintro rfl hlift
    obtain ⟨hban, shut, hshut⟩ := shut_ban hbefore hstep hcut
    obtain ⟨hstill, shut', hend⟩ := Shut.run (fun c => d ∈ c.bannedSubscribers)
      (fun c hc _ _ _ _ => Or.inl hc)
      (fun op hop draw c => (Op.apply_effect op).banned (fun he => hlift (he ▸ hop)))
      hshut (hbefore.step _) (Nat.le_refl _) hban
    exact ⟨subscribe_of_banned hstill, fun a => handleKeyRequest_of_banned hstill,
      fun s hs g hg hd => hend.unreadable hs trivial hg hd⟩
  · intro a hop hlift
    obtain ⟨hblock, shut, hshut⟩ := shut_block hop hbefore hstep hcut
    have hrefused : ∀ c : BroadcastContext κ, Blocks c.authors a d → Refused (· = a) d c := by
      rintro c ⟨x, hx, hd⟩ b y rfl hy
      rw [Option.some.inj (hx.symm.trans hy)] at hd
      exact Or.inr hd
    have hstands : ∀ op ∈ during, ∀ (draw : ℕ → κ) c, Blocks c.authors a d →
        Blocks (op.apply draw c).authors a d := by
      intro op hop draw c
      obtain ⟨hunblock, hunban, hgone⟩ := hlift op hop
      exact (Op.apply_effect op).blocks hunblock hunban hgone
    obtain ⟨hstill, shut', hend⟩ := Shut.run (fun c => Blocks c.authors a d) hrefused hstands
      hshut (hbefore.step _) (Nat.le_refl _) hblock
    exact ⟨handleKeyRequest_of_blocks hstill,
      fun s hs ha g hg hd => hend.unreadable hs ha hg hd⟩

end Run

-- A reader who was sent the key, and is then banned or blocked.

def sampleContext : BroadcastContext ℕ where
  contextId := "news"
  admission := .public_
  subscribers := [("bob", ⟨"bob", 1, false⟩)]
  authors := [("alice", .new "alice" 1)]
  bannedSubscribers := []

def sampleGen (i : ℕ) : ℕ := i+2

def sampleWorld : World ℕ := ⟨sampleContext, 0, [], []⟩

def sampleBefore : List Op := [.handleKeyRequest "alice" "bob" [] none, .publish "alice" 2 none]

def sampleDuring : List Op :=
  [.addAuthor "carol", .publish "alice" 3 none, .publish "carol" 4 none,
    .handleKeyRequest "carol" "bob" [] none]

theorem sampleWorld_fresh (n : ℕ) : Fresh sampleGen n sampleWorld where
  apart := by
    intro i j _ _ h
    simp only [sampleGen] at h
    omega
  unheld := by
    intro i _ _ did a ha
    rw [sampleWorld, sampleContext, get_cons] at ha
    by_cases hdid : "alice" = did
    · rw [if_pos hdid, Option.some.injEq] at ha
      rw [← ha]
      simp only [AuthorState.new, sampleGen]
      omega
    · rw [if_neg hdid] at ha
      cases ha
  unsent := by
    intro i _ _ g hg
    cases hg

/-- The ban succeeds, the reader had been sent the first key, and what is published after it
is under keys it was not sent. -/
theorem cut_off_reader_stays_cut_off_sample :
    ((run sampleGen sampleWorld (sampleBefore ++ .governanceBanSubscriber "bob" ::
        sampleDuring)).grants.map (fun g => (g.requesterDid, g.key)) = [("bob", 1)] ∧
      (run sampleGen sampleWorld (sampleBefore ++ .governanceBanSubscriber "bob" ::
        sampleDuring)).sealings.map (fun s => (s.authorDid, s.envelope.key)) =
          [("alice", 1), ("alice", 2), ("carol", 3)]) ∧
    (run sampleGen sampleWorld (sampleBefore ++ .governanceBanSubscriber "bob" ::
      sampleDuring)).ctx.handleKeyRequest "carol" "bob" [] none = .deny keyRequestDenyReason ∧
    (run sampleGen sampleWorld (sampleBefore ++ .blockSubscriberGroup "alice" ["eve", "bob"] ::
      sampleDuring)).ctx.handleKeyRequest "alice" "bob" [] none = .deny keyRequestDenyReason := by
  refine ⟨by decide +kernel, ?_, ?_⟩
  · exact ((cut_off_reader_stays_cut_off sampleGen sampleWorld sampleBefore sampleDuring
      (.governanceBanSubscriber "bob") "bob" (sampleWorld_fresh _) (by decide +kernel)).1 rfl
        (by simp [sampleDuring])).2.1 "carol" [] none
  · exact ((cut_off_reader_stays_cut_off sampleGen sampleWorld sampleBefore sampleDuring
      (.blockSubscriberGroup "alice" ["eve", "bob"]) "bob" (sampleWorld_fresh _)
        (by decide +kernel)).2 "alice" (Or.inr ⟨_, by simp, rfl⟩) (by simp [sampleDuring])).1
          [] none

end ScpCore.Broadcast
