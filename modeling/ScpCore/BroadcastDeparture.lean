import ScpCore.BroadcastCalls

/-! Runs of a broadcast context's runtime from its creation. The roster and the authors stay
within the membership as long as no author departs, and a member who left reads nothing that
is sealed afterwards. -/

namespace ScpCore.Broadcast

open OrderedMap
open Roles (ContextRoleState UcanToken)
open Consequence (AccessScope)

section Protocol
variable {κ : Type} {gen : ℕ → κ} {w : World κ} {c : BroadcastContext κ} {n : ℕ} {d : String}

/-- No author holds a key the reader was sent. -/
def Unreached (d : String) (w : World κ) : Prop :=
  ∀ a x, w.ctx.authors.get a = some x → ∀ g ∈ w.grants, g.requesterDid = d →
    g.key ≠ x.broadcastKey

theorem draw_unsent (hfresh : Fresh gen n w) {op : Op} (hn : (step gen w op).made ≤ n) {i : ℕ}
    (hi : i < op.generates w.ctx) {g : Grant κ} (hg : g ∈ w.grants) : g.key ≠ w.draw gen i := by
  refine hfresh.unsent _ (Nat.le_add_right _ _) ?_ g hg
  exact Nat.lt_of_lt_of_le (Nat.add_lt_add_left hi w.made) hn

/-- A key that is new to an author is new to every reader. -/
theorem Unreached.step (h : Unreached d w) (hfresh : Fresh gen n w) {op : Op}
    (hn : (step gen w op).made ≤ n) (hgrants : ∀ g ∈ op.granted w.ctx, g.requesterDid ≠ d) :
    Unreached d (step gen w op) := by
  intro a x hx g hg hd
  have hold : g ∈ w.grants := by
    rcases List.mem_append.mp hg with hg | hg
    · exact hg
    · exact absurd hd (hgrants g hg)
  obtain ⟨drew, -, hkeys⟩ := step_keys gen w op
  rcases hkeys a x hx with ⟨y, hy, hkey⟩ | ⟨i, hi, -, hkey⟩
  · rw [hkey]
    exact h a y hy g hold hd
  · rw [hkey]
    exact draw_unsent hfresh hn hi hold

/-- Where every author is given a new key, no reader holds one. -/
theorem unreached_of_new (hfresh : Fresh gen n w) {op : Op} (hn : (step gen w op).made ≤ n)
    (hgrants : op.granted w.ctx = [])
    (hnew : ∀ a x, (step gen w op).ctx.authors.get a = some x →
      ∃ i < op.generates w.ctx, x.broadcastKey = w.draw gen i) (d : String) :
    Unreached d (step gen w op) := by
  intro a x hx g hg _
  rw [Broadcast.step, hgrants, List.append_nil] at hg
  obtain ⟨i, hi, hkey⟩ := hnew a x hx
  rw [hkey]
  exact draw_unsent hfresh hn hi hg

/-- Nothing sealed from `since` on is under a key the reader was sent, and nothing will be
that is sealed next. -/
structure Apart (d : String) (since : ℕ) (w : World κ) : Prop where
  unreached : Unreached d w
  since_le : since ≤ w.sealings.length
  sealed_ : ∀ s ∈ w.sealings.drop since, ∀ g ∈ w.grants, g.requesterDid = d →
    g.key ≠ s.envelope.key

theorem Apart.step {since : ℕ} (h : Apart d since w) (hfresh : Fresh gen n w) {op : Op}
    (hn : (step gen w op).made ≤ n) (hgrants : ∀ g ∈ op.granted w.ctx, g.requesterDid ≠ d) :
    Apart d since (step gen w op) where
  unreached := h.unreached.step hfresh hn hgrants
  since_le := by
    rw [Broadcast.step, List.length_append]
    exact h.since_le.trans (Nat.le_add_right _ _)
  sealed_ := by
    intro s hs g hg hd
    have hold : g ∈ w.grants := by
      rcases List.mem_append.mp hg with hg | hg
      · exact hg
      · exact absurd hd (hgrants g hg)
    rw [Broadcast.step, List.drop_append_of_le_length h.since_le, List.mem_append] at hs
    rcases hs with hs | hs
    · exact h.sealed_ s hs g hold hd
    · obtain ⟨x, hx, hkey⟩ := Op.mem_seals hs
      rw [hkey]
      exact h.unreached _ x hx g hold hd

/-- On the roster or among the authors. -/
def Eligible (c : BroadcastContext κ) (d : String) : Prop :=
  c.subscribers.contains d = true ∨ c.authors.contains d = true

theorem eligible_of_grant {a : String} {pubkey wrapping : List UInt8} {failure : Option String}
    {key : κ} {epoch : ℕ} (h : c.handleKeyRequest a d pubkey failure = .grant key wrapping epoch) :
    Eligible c d := by
  by_contra hnot
  rw [Eligible, not_or, Bool.not_eq_true, Bool.not_eq_true] at hnot
  unfold BroadcastContext.handleKeyRequest at h
  by_cases hban : d ∈ c.bannedSubscribers
  · simp [hban] at h
  · cases hget : c.authors.get a with
    | none => simp [hban, hget] at h
    | some x =>
      by_cases hblock : d ∈ x.blockList
      · simp [hban, hget, hblock] at h
      · simp [hban, hget, hblock, hnot.1, hnot.2] at h

theorem Op.granted_eligible {op : Op} {g : Grant κ} (h : g ∈ op.granted c) :
    Eligible c g.requesterDid := by
  cases op with
  | handleKeyRequest a d pubkey failure =>
    simp only [Op.granted] at h
    split at h
    · rename_i key wrapping epoch hgrant
      rw [List.mem_singleton.mp h]
      exact eligible_of_grant hgrant
    · cases h
  | _ => cases h

theorem contains_eq_isSome {α : Type} (m : OrderedMap String α) (k : String) :
    m.contains k = (m.get k).isSome := by
  rw [Bool.eq_iff_iff, contains_iff, ← not_iff_not, ← get_eq_none_iff, Option.not_isSome_iff_eq_none]

/-- Only an addition or a removal changes who is an author. -/
theorem Effect.contains_eq {draw : ℕ → κ} {op : Op} {after : OrderedMap String (AuthorState κ)}
    {bans : List String} (h : Effect draw c op n after bans) (hadd : ∀ a, op ≠ .addAuthor a)
    (hremove : ∀ a, op ≠ .blockAuthor a) (a : String) : after.contains a = c.authors.contains a := by
  rw [contains_eq_isSome, contains_eq_isSome]
  cases h with
  | kept => rfl
  | added b => exact absurd rfl (hadd b)
  | removed b => exact absurd rfl (hremove b)
  | edited => rw [get_adjust]; split <;> simp [*]
  | rekeyed => rw [get_adjust]; split <;> simp [*]
  | unblocked => rw [get_adjust]; split <;> simp [*]
  | excluded => rw [get_map, Option.isSome_map]
  | unbanned => rw [get_map, Option.isSome_map]
  | rotated => rw [get_mapFrom, Option.isSome_map]

/-- Nobody becomes an author but by an addition. -/
theorem Effect.contains_of_contains {draw : ℕ → κ} {op : Op}
    {after : OrderedMap String (AuthorState κ)} {bans : List String}
    (h : Effect draw c op n after bans) (hadd : ∀ a, op ≠ .addAuthor a) {a : String}
    (ha : after.contains a = true) : c.authors.contains a = true := by
  by_cases hremove : ∃ b, op = .blockAuthor b
  · obtain ⟨b, rfl⟩ := hremove
    rw [contains_eq_isSome] at ha ⊢
    cases h with
    | kept => exact ha
    | removed =>
      rw [get_removeKey] at ha
      split at ha
      · cases ha
      · exact ha
    | edited =>
      rw [get_adjust] at ha
      split at ha <;> simp_all
    | rekeyed =>
      rw [get_adjust] at ha
      split at ha <;> simp_all
    | rotated =>
      rw [get_mapFrom, Option.isSome_map] at ha
      exact ha
  · rw [not_exists] at hremove
    rw [← h.contains_eq hadd hremove]
    exact ha

/-- The operations that touch neither the roster nor who is an author. -/
def Op.quiet : Op → Prop
  | .blockSubscriber _ _ | .unblockSubscriber _ _ | .governanceUnbanSubscriber _
  | .reservePublish _ | .applyReservedPublish _ _ _ _ | .rollbackReservedPublish _ _
  | .handleKeyRequest _ _ _ _ => True
  | _ => False

theorem blockAll_subscribers (draw : ℕ → κ) (c : BroadcastContext κ) (a : String)
    (dids : List String) : (c.blockAll a dids draw).2.subscribers = c.subscribers := by
  rcases blockAll_cases draw c a dids with ⟨-, -, h⟩ | ⟨author, -, ⟨-, -, h⟩ | ⟨-, -, h⟩⟩ <;> rw [h]

theorem Op.quiet.frame {op : Op} (h : op.quiet) (draw : ℕ → κ) (c : BroadcastContext κ) :
    (op.apply draw c).subscribers = c.subscribers ∧
      ∀ a, (op.apply draw c).authors.contains a = c.authors.contains a := by
  have hauthors : ∀ a, (op.apply draw c).authors.contains a = c.authors.contains a := by
    apply (Op.apply_effect op).contains_eq
    · rintro a rfl
      exact h
    · rintro a rfl
      exact h
  refine ⟨?_, hauthors⟩
  cases op with
  | blockSubscriber a d => exact blockAll_subscribers draw c a [d]
  | unblockSubscriber a d =>
    refine keptUnless_snd_of (P := fun x => x.subscribers = c.subscribers) rfl ?_
    intro _ c' hok
    rw [unblockSubscriber_ok hok]
  | reservePublish a =>
    refine keptUnless_snd_of (P := fun x => x.subscribers = c.subscribers) rfl ?_
    intro _ c' hok
    obtain ⟨author, hres⟩ := reservePublish_ok hok
    obtain ⟨next, rfl⟩ := reserve_ok hres
    rfl
  | governanceUnbanSubscriber d => rfl
  | applyReservedPublish => rfl
  | rollbackReservedPublish => rfl
  | handleKeyRequest => rfl
  | _ => exact h.elim

end Protocol

section Runtime
variable {κ : Type} {gen : ℕ → κ} {w : CellWorld κ}

variable {n : ℕ} {d : String}

theorem mem_publishOps {s : Cell κ} {a : String} {timestamp : ℕ} {faults : Cell.PublishFaults}
    {op : Op} (hop : op ∈ publishOps s a timestamp faults) :
    op = .reservePublish a ∨ (∃ sequence, op = .rollbackReservedPublish a sequence) ∨
      ∃ sequence, op = .applyReservedPublish a sequence timestamp faults.sealFailure := by
  unfold publishOps at hop
  split at hop
  · cases hop
  · split at hop
    · cases hop
    · rcases List.mem_cons.mp hop with rfl | hop
      · exact Or.inl rfl
      · split at hop
        · exact Or.inr (Or.inl ⟨_, List.mem_singleton.mp hop⟩)
        · rcases List.mem_cons.mp hop with rfl | hop
          · exact Or.inr (Or.inr ⟨_, rfl⟩)
          · split at hop
            · cases hop
            · exact Or.inr (Or.inl ⟨_, List.mem_singleton.mp hop⟩)

/-- Only a key request grants a key, and it is one operation. -/
theorem ops_granted (s : Cell κ) (c : Call) :
    (∀ op ∈ c.ops s, ∀ ctx : BroadcastContext κ, op.granted ctx = []) ∨
      ∃ op, c.ops s = [op] := by
  cases c with
  | publish a timestamp faults =>
    left
    intro op hop ctx
    rcases mem_publishOps hop with rfl | ⟨sequence, rfl⟩ | ⟨sequence, rfl⟩ <;> rfl
  | revoke d access landed =>
    left
    intro op hop ctx
    have hop : op = .blockAuthor d ∨ op = .governanceBanSubscriber d := by
      cases access <;> simp only [Call.ops, Cell.coversWrite, Cell.coversRead] at hop <;>
        split at hop <;> simp at hop <;> tauto
    rcases hop with rfl | rfl <;> rfl
  | keyRequest localDids a d pubkey failure =>
    rw [Call.ops]
    split
    · exact Or.inr ⟨_, rfl⟩
    · exact Or.inl (fun op hop => absurd hop List.not_mem_nil)
  | _ =>
    left
    intro op hop ctx
    simp only [Call.ops] at hop
    split at hop
    · rw [List.mem_singleton.mp hop]
      rfl
    · cases hop

theorem Apart.run {w : World κ} {since : ℕ} {ops : List Op} (h : Apart d since w)
    (hfresh : Fresh gen n w) (hn : (run gen w ops).made ≤ n)
    (hgrants : ∀ op ∈ ops, ∀ ctx : BroadcastContext κ, op.granted ctx = []) :
    Apart d since (run gen w ops) := by
  induction ops generalizing w with
  | nil => exact h
  | cons op ops ih =>
    have hstep : (Broadcast.step gen w op).made ≤ n := (run_made_le gen _ ops).trans hn
    have hnone : ∀ g ∈ op.granted w.ctx, g.requesterDid ≠ d := by
      rw [hgrants op List.mem_cons_self]
      exact fun g hg => absurd hg List.not_mem_nil
    exact ih (h.step hfresh hstep hnone) (hfresh.step op) hn
      (fun o ho => hgrants o (List.mem_cons_of_mem op ho))

/-- A reader who is neither on the roster nor an author is granted nothing by a call. -/
theorem Apart.call {since : ℕ} (h : Apart d since w.protocol) (hfresh : Fresh gen n w.protocol)
    (c : Call) (hn : (call gen w c).made ≤ n) (hnot : ¬ Eligible w.cell.broadcast d) :
    Apart d since (call gen w c).protocol := by
  have hmade : (Broadcast.run gen w.protocol (c.ops w.cell)).made ≤ n := by
    rw [← call_protocol]
    exact hn
  rw [call_protocol]
  rcases ops_granted w.cell c with hnone | ⟨op, hop⟩
  · exact h.run hfresh hmade hnone
  · rw [hop] at hmade ⊢
    refine h.step hfresh hmade (fun g hg hd => hnot ?_)
    rw [← hd]
    exact Op.granted_eligible hg

theorem Unreached.call (h : Unreached d w.protocol) (hfresh : Fresh gen n w.protocol)
    (c : Call) (hn : (call gen w c).made ≤ n) (hnot : ¬ Eligible w.cell.broadcast d) :
    Unreached d (call gen w c).protocol := by
  have hapart : Apart d w.sealings.length w.protocol :=
    ⟨h, Nat.le_refl _, fun s hs => by simp [CellWorld.protocol] at hs⟩
  exact (hapart.call hfresh c hn hnot).unreached

theorem Fresh.call (h : Fresh gen n w.protocol) (c : Call) :
    Fresh gen n (call gen w c).protocol := by
  rw [call_protocol]
  exact h.run (c.ops w.cell)

/-- No author's epoch is exhausted. -/
def Unexhausted (c : BroadcastContext κ) : Prop := ∀ e ∈ c.authors, e.2.epoch ≠ u64Max

theorem contains_removeKey {α : Type} (m : OrderedMap String α) (k j : String) :
    (m.removeKey k).contains j = (decide (j ≠ k) && m.contains j) := by
  rw [contains_eq_isSome, contains_eq_isSome, get_removeKey]
  by_cases h : j = k <;> simp [h]

theorem contains_orInsert {α : Type} (m : OrderedMap String α) (k : String) (a : α) (j : String) :
    (m.orInsert k a).contains j = (decide (j = k) || m.contains j) := by
  rw [contains_eq_isSome, contains_eq_isSome, get_orInsert]
  by_cases h : j = k <;> simp [h]

section Departure
variable {c : BroadcastContext κ} {draw : ℕ → κ}

theorem reached_eq_length {authors : OrderedMap String (AuthorState κ)}
    (h : ∀ e ∈ authors, e.2.epoch ≠ u64Max) : reached authors = authors.length := by
  unfold reached
  rw [List.takeWhile_eq_self_iff.mpr]
  intro e he
  simpa using h e he

theorem rotateInOrder_isOk {authors : OrderedMap String (AuthorState κ)}
    (h : ∀ e ∈ authors, e.2.epoch ≠ u64Max) (n : ℕ) :
    (BroadcastContext.rotateInOrder draw n authors).1.isOk = true := by
  induction authors generalizing n with
  | nil => rfl
  | cons e authors ih =>
    have hrest := ih (fun x hx => h x (List.mem_cons_of_mem e hx)) (n+1)
    rw [BroadcastContext.rotateInOrder, if_neg (h e List.mem_cons_self)]
    dsimp only
    cases hrot : (BroadcastContext.rotateInOrder draw (n+1) authors).1 with
    | error x =>
      rw [hrot] at hrest
      cases hrest
    | ok results => rfl

theorem unsubscribe_subscribers (d : String) (rotateKeys : Bool) (e : String) :
    (c.unsubscribe d rotateKeys draw).2.subscribers.contains e =
      (decide (e ≠ d) && c.subscribers.contains e) := by
  unfold BroadcastContext.unsubscribe
  cases h : c.subscribers.contains d with
  | false =>
    by_cases he : e = d
    · subst he
      simp [h]
    · simp [he]
  | true =>
    have hremoved := contains_removeKey c.subscribers d e
    cases rotateKeys <;> simpa using hremoved

/-- With no epoch exhausted the only reader an unsubscription fails on is an unknown one. -/
theorem unsubscribe_isOk (draw : ℕ → κ) (rotateKeys : Bool) (d : String)
    (h : rotateKeys = true → Unexhausted c) :
    (c.unsubscribe d rotateKeys draw).1.isOk = c.subscribers.contains d ∧
      (unlessNotFound [] (c.unsubscribe d rotateKeys draw).1).isOk = true := by
  unfold BroadcastContext.unsubscribe
  cases hd : c.subscribers.contains d with
  | false => exact ⟨rfl, rfl⟩
  | true =>
    cases rotateKeys with
    | false => exact ⟨rfl, rfl⟩
    | true =>
      have hok : (BroadcastContext.rotateInOrder draw 0 c.authors).1.isOk = true :=
        rotateInOrder_isOk (h rfl) 0
      simp only [Bool.not_true, Bool.false_eq_true, if_false, if_true]
      cases hrot : (BroadcastContext.rotateInOrder draw 0 c.authors).1 with
      | error x =>
        rw [hrot] at hok
        cases hok
      | ok results => exact ⟨rfl, rfl⟩

/-- A rotating unsubscription leaves no reader with a current key. -/
theorem unreached_unsubscribe {w : World κ} (hfresh : Fresh gen n w)
    (hn : (step gen w (.unsubscribe d true)).made ≤ n) (hroom : Unexhausted w.ctx)
    (hd : w.ctx.subscribers.contains d = true) (e : String) :
    Unreached e (step gen w (.unsubscribe d true)) := by
  have hgenerates : Op.generates w.ctx (.unsubscribe d true) = w.ctx.authors.length := by
    simp [Op.generates, hd, reached_eq_length hroom]
  refine unreached_of_new hfresh hn rfl ?_ e
  intro a x hx
  have hauthors : (step gen w (.unsubscribe d true)).ctx.authors = w.ctx.authors.mapFrom
      (fun i a => if i < 0+reached w.ctx.authors then a.rotate (w.draw gen i) else a) 0 := by
    rw [← rotateInOrder_authors]
    simp [step, Op.apply, BroadcastContext.unsubscribe, hd]
  rw [hauthors, get_mapFrom, Nat.zero_add] at hx
  obtain ⟨y, hy, rfl⟩ := Option.map_eq_some_iff.mp hx
  refine ⟨w.ctx.authors.position a, by rw [hgenerates]; exact position_lt hy, ?_⟩
  rw [if_pos (by rw [Nat.zero_add, reached_eq_length hroom]; exact position_lt hy)]
  rfl

/-- So does a ban. -/
theorem unreached_ban {w : World κ} (hfresh : Fresh gen n w)
    (hn : (step gen w (.governanceBanSubscriber d)).made ≤ n) (hroom : Unexhausted w.ctx)
    (e : String) : Unreached e (step gen w (.governanceBanSubscriber d)) := by
  have hgenerates : rotationGenerates w.ctx = w.ctx.authors.length := by
    rw [rotationGenerates, if_neg]
    rw [List.any_eq_true]
    rintro ⟨x, hx, hfull⟩
    exact hroom x hx (of_decide_eq_true hfull)
  obtain ⟨-, ⟨hnone, -, -⟩ | ⟨-, -, hauthors⟩⟩ := governanceBan_cases (w.draw gen) w.ctx d
  · -- No key is generated only where there is no author.
    have hempty : w.ctx.authors = [] := List.length_eq_zero_iff.mp (hgenerates.symm.trans hnone)
    intro a x hx
    have hsame : (step gen w (.governanceBanSubscriber d)).ctx.authors = [] := by
      simp [step, Op.apply, BroadcastContext.governanceBanSubscriber, hempty, mapFrom]
    rw [hsame] at hx
    cases hx
  · refine unreached_of_new hfresh hn rfl ?_ e
    intro a x hx
    rw [step, Op.apply, hauthors, get_mapFrom, Nat.zero_add] at hx
    obtain ⟨y, hy, rfl⟩ := Option.map_eq_some_iff.mp hx
    exact ⟨_, by rw [Op.generates, hgenerates]; exact position_lt hy, rfl⟩

end Departure

/-- Who unsubscribes or leaves is no author, and no epoch is exhausted where a departure or
a revocation is to rotate the keys. -/
def Call.Steady (s : Cell κ) : Call → Prop
  | .unsubscribe d rotateKeys _ =>
    s.broadcast.authors.contains d = false ∧ (rotateKeys = true → Unexhausted s.broadcast)
  | .leave _ d _ => s.broadcast.authors.contains d = false ∧ Unexhausted s.broadcast
  | .revoke _ access _ => Cell.coversRead access = true → Unexhausted s.broadcast
  | _ => True

/-- Readers and authors are members, there is one author at most, and a member who is
neither holds no current key. -/
structure Sound (w : CellWorld κ) : Prop where
  roster : ∀ e, w.cell.broadcast.subscribers.contains e = true → w.cell.membership.contains e = true
  authors : ∀ e, w.cell.broadcast.authors.contains e = true → w.cell.membership.contains e = true
  alone : ∀ a b, w.cell.broadcast.authors.contains a = true →
    w.cell.broadcast.authors.contains b = true → a = b
  clean : ∀ e, w.cell.membership.contains e = true → ¬ Eligible w.cell.broadcast e →
    Unreached e w.protocol

/-- The next cell keeps its authors, and its members who are neither readers nor authors were
so before or hold no current key. -/
theorem Sound.next (h : Sound w) (hfresh : Fresh gen n w.protocol) (c : Call)
    (hn : (call gen w c).made ≤ n)
    (hauthors : ∀ e, (call gen w c).cell.broadcast.authors.contains e =
      w.cell.broadcast.authors.contains e)
    (hin : ∀ e, Eligible (call gen w c).cell.broadcast e →
      (call gen w c).cell.membership.contains e = true)
    (hclean : ∀ e, (call gen w c).cell.membership.contains e = true →
      ¬ Eligible (call gen w c).cell.broadcast e →
      (w.cell.membership.contains e = true ∧ w.cell.broadcast.subscribers.contains e = false) ∨
        Unreached e (call gen w c).protocol) :
    Sound (call gen w c) where
  roster := fun e he => hin e (Or.inl he)
  authors := fun e he => hin e (Or.inr he)
  alone := by
    intro a b
    rw [hauthors, hauthors]
    exact h.alone a b
  clean := by
    intro e he hnot
    rcases hclean e he hnot with ⟨hmember, hroster⟩ | hunreached
    · have hbefore : ¬ Eligible w.cell.broadcast e := by
        rintro (hs | ha)
        · rw [hroster] at hs
          cases hs
        · exact hnot (Or.inr ((hauthors e).trans ha))
      exact (h.clean e hmember hbefore).call hfresh c hn hbefore
    · exact hunreached

/-- A call that leaves the roster, the authors and the members as they were. -/
theorem Sound.still (h : Sound w) (hfresh : Fresh gen n w.protocol) (c : Call)
    (hn : (call gen w c).made ≤ n)
    (hauthors : ∀ e, (call gen w c).cell.broadcast.authors.contains e =
      w.cell.broadcast.authors.contains e)
    (hroster : (call gen w c).cell.broadcast.subscribers = w.cell.broadcast.subscribers)
    (hmembers : ∀ e, (call gen w c).cell.membership.contains e = w.cell.membership.contains e) :
    Sound (call gen w c) := by
  refine h.next hfresh c hn hauthors ?_ ?_
  · intro e he
    rw [hmembers]
    rcases he with he | he
    · rw [hroster] at he
      exact h.roster e he
    · rw [hauthors] at he
      exact h.authors e he
  · intro e he hnot
    left
    rw [hmembers] at he
    rw [Eligible, hroster, not_or, Bool.not_eq_true] at hnot
    exact ⟨he, hnot.1⟩

/-- A member who is no author and who goes from the roster and from the membership. -/
theorem Sound.gone (h : Sound w) (hfresh : Fresh gen n w.protocol) (c : Call)
    (hn : (call gen w c).made ≤ n) {d : String}
    (hd : w.cell.broadcast.authors.contains d = false)
    (hauthors : ∀ e, (call gen w c).cell.broadcast.authors.contains e =
      w.cell.broadcast.authors.contains e)
    (hroster : ∀ e, (call gen w c).cell.broadcast.subscribers.contains e =
      (decide (e ≠ d) && w.cell.broadcast.subscribers.contains e))
    (hmembers : ∀ e, (call gen w c).cell.membership.contains e =
      (decide (e ≠ d) && w.cell.membership.contains e)) :
    Sound (call gen w c) := by
  refine h.next hfresh c hn hauthors ?_ ?_
  · intro e he
    rw [hmembers, Bool.and_eq_true, decide_eq_true_eq]
    rcases he with he | he
    · rw [hroster, Bool.and_eq_true, decide_eq_true_eq] at he
      exact ⟨he.1, h.roster e he.2⟩
    · rw [hauthors] at he
      refine ⟨?_, h.authors e he⟩
      rintro rfl
      rw [hd] at he
      cases he
  · intro e he hnot
    left
    rw [hmembers, Bool.and_eq_true, decide_eq_true_eq] at he
    refine ⟨he.2, ?_⟩
    rw [Eligible, hroster, not_or, Bool.not_eq_true, Bool.and_eq_false_iff,
      decide_eq_false_iff_not] at hnot
    exact hnot.1.resolve_left (fun hne => hne he.1)

theorem run_quiet (gen : ℕ → κ) (w : World κ) {ops : List Op} (h : ∀ op ∈ ops, op.quiet) :
    (run gen w ops).ctx.subscribers = w.ctx.subscribers ∧
      ∀ a, (run gen w ops).ctx.authors.contains a = w.ctx.authors.contains a := by
  induction ops generalizing w with
  | nil => exact ⟨rfl, fun _ => rfl⟩
  | cons op ops ih =>
    obtain ⟨hroster, hauthors⟩ :=
      ih (step gen w op) (fun o ho => h o (List.mem_cons_of_mem op ho))
    obtain ⟨hroster', hauthors'⟩ := (h op List.mem_cons_self).frame (w.draw gen) w.ctx
    exact ⟨hroster.trans hroster', fun a => (hauthors a).trans (hauthors' a)⟩

theorem publishOps_quiet (s : Cell κ) (a : String) (timestamp : ℕ) (faults : Cell.PublishFaults) :
    ∀ op ∈ publishOps s a timestamp faults, op.quiet := by
  intro op hop
  rcases mem_publishOps hop with rfl | ⟨sequence, rfl⟩ | ⟨sequence, rfl⟩ <;> trivial

theorem publish_members (s : Cell κ) (a : String) (timestamp : ℕ) (faults : Cell.PublishFaults)
    (e : String) : (s.publishBroadcastInTurn a timestamp faults).2.2.membership.contains e =
      s.membership.contains e := by
  have hreserve : (s.checked faults.keyKind (·.reservePublish a)).2.membership = s.membership := by
    refine Outcome.andThen_snd (P := fun t => t.membership = s.membership) rfl (fun _ _ => ?_)
    refine Outcome.andThen_snd (P := fun t => t.membership = s.membership) rfl (fun _ _ => ?_)
    dsimp only
    split
    · rfl
    · split <;> rfl
  unfold Cell.publishBroadcastInTurn
  split
  · rename_i hout
    rw [hout] at hreserve
    rw [← hreserve]
  · rename_i pending reserved hout
    rw [hout] at hreserve
    dsimp only at hreserve ⊢
    split
    · rw [← hreserve]
      rfl
    · split
      · rw [hreserve]
      · rw [Cell.nextSequenceNumber]
        dsimp only
        rw [contains_eq_isSome, contains_eq_isSome, get_adjust, hreserve]
        split
        · rename_i he
          rw [Option.isSome_map, he]
        · rfl

theorem subscribe_subscribers {c c' : BroadcastContext κ} {admittance : BroadcastContext.Admittance}
    {timestamp : ℕ} {epochs : List (String × ℕ)}
    (h : c.subscribe d admittance timestamp = .ok (epochs, c')) (e : String) :
    c'.subscribers.contains e = (decide (e = d) || c.subscribers.contains e) := by
  unfold BroadcastContext.subscribe at h
  simp only [bind_ok_iff, exists_unit_iff, pure_ok_iff, Prod.mk.injEq] at h
  obtain ⟨-, -, hasUcan, -, -, rfl⟩ := h
  exact contains_orInsert _ _ _ _

theorem unsubscribe_of_unknown {c : BroadcastContext κ} {draw : ℕ → κ} {rotateKeys : Bool}
    (h : c.subscribers.contains d = false) : (c.unsubscribe d rotateKeys draw).2 = c := by
  simp [BroadcastContext.unsubscribe, h]

theorem unsubscribe_authors (c : BroadcastContext κ) (draw : ℕ → κ) (d : String)
    (rotateKeys : Bool) (a : String) :
    (c.unsubscribe d rotateKeys draw).2.authors.contains a = c.authors.contains a :=
  Effect.contains_eq (Op.apply_effect (.unsubscribe d rotateKeys)) (fun _ he => by cases he)
    (fun _ he => by cases he) a

section Steps
variable {landed : Except RuntimeError Unit}

theorem Sound.subscribe (h : Sound w) (hfresh : Fresh gen n w.protocol)
    {admittance : BroadcastContext.Admittance} {timestamp : ℕ}
    (hn : (call gen w (.subscribe d admittance timestamp landed)).made ≤ n) :
    Sound (call gen w (.subscribe d admittance timestamp landed)) := by
  rcases subscribe_cases w.cell d landed admittance timestamp with
    ⟨hcell, -⟩ | ⟨-, epochs, broadcast, hsub, hcell⟩
  · refine h.still hfresh _ hn ?_ ?_ ?_ <;> simp [call, Call.apply, hcell]
  · obtain ⟨-, hauthors, -⟩ := subscribe_ok hsub
    have hroster := subscribe_subscribers hsub
    have hmembers : ∀ e, (call gen w (.subscribe d admittance timestamp landed)).cell.membership.contains
        e = (decide (e = d) || w.cell.membership.contains e) := by
      intro e
      rw [call, Call.apply, hcell, Cell.addMember]
      dsimp only
      rw [contains_orInsert, contains_removeKey]
      by_cases he : e = d <;> simp [he]
    have hcell' : (call gen w (.subscribe d admittance timestamp landed)).cell.broadcast =
        broadcast := by
      rw [call, Call.apply, hcell]
      rfl
    refine h.next hfresh _ hn ?_ ?_ ?_
    · intro e
      rw [hcell', hauthors]
    · intro e he
      rw [hmembers, Bool.or_eq_true, decide_eq_true_eq]
      rcases he with he | he
      · rw [hcell', hroster, Bool.or_eq_true, decide_eq_true_eq] at he
        exact he.imp id (h.roster e)
      · rw [hcell', hauthors] at he
        exact Or.inr (h.authors e he)
    · intro e he hnot
      left
      rw [hmembers, Bool.or_eq_true, decide_eq_true_eq] at he
      rw [Eligible, hcell', hroster, not_or, Bool.not_eq_true, Bool.or_eq_false_iff,
        decide_eq_false_iff_not] at hnot
      exact ⟨he.resolve_left hnot.1.1, hnot.1.2⟩

theorem Sound.unsubscribe (h : Sound w) (hfresh : Fresh gen n w.protocol) {rotateKeys : Bool}
    (hn : (call gen w (.unsubscribe d rotateKeys landed)).made ≤ n)
    (hsteady : Call.Steady w.cell (.unsubscribe d rotateKeys landed)) :
    Sound (call gen w (.unsubscribe d rotateKeys landed)) := by
  obtain ⟨hd, hroom⟩ := hsteady
  rcases unsubscribe_cases w.cell (w.protocol.draw gen) d landed rotateKeys with
    ⟨-, hcell⟩ | ⟨-, hcell⟩
  · refine h.still hfresh _ hn ?_ ?_ ?_ <;> simp [call, Call.apply, hcell]
  · have hauthors := unsubscribe_authors w.cell.broadcast (w.protocol.draw gen) d rotateKeys
    have hok := (unsubscribe_isOk (w.protocol.draw gen) rotateKeys d hroom).1
    cases hmember : w.cell.broadcast.subscribers.contains d with
    | false =>
      rw [hok, hmember, unsubscribe_of_unknown hmember] at hcell
      refine h.still hfresh _ hn ?_ ?_ ?_ <;> simp [call, Call.apply, hcell]
    | true =>
      rw [hok, hmember, if_pos rfl] at hcell
      refine h.gone hfresh _ hn hd ?_ ?_ ?_
      · intro e
        rw [call, Call.apply, hcell]
        exact hauthors e
      · intro e
        rw [call, Call.apply, hcell]
        exact unsubscribe_subscribers d rotateKeys e
      · intro e
        rw [call, Call.apply, hcell]
        exact contains_removeKey _ _ _

theorem Sound.leave (h : Sound w) (hfresh : Fresh gen n w.protocol) {caller : String}
    (hn : (call gen w (.leave caller d landed)).made ≤ n)
    (hsteady : Call.Steady w.cell (.leave caller d landed)) :
    Sound (call gen w (.leave caller d landed)) := by
  obtain ⟨hd, hroom⟩ := hsteady
  rcases leave_cases w.cell (w.protocol.draw gen) d landed caller with
    ⟨-, hcell⟩ | ⟨-, hbroadcast, hmembership⟩
  · refine h.still hfresh _ hn ?_ ?_ ?_ <;> simp [call, Call.apply, hcell]
  · have hok := (unsubscribe_isOk (w.protocol.draw gen) true d (fun _ => hroom)).2
    rw [if_pos hok] at hmembership
    refine h.gone hfresh _ hn hd ?_ ?_ ?_
    · intro e
      rw [call, Call.apply, hbroadcast]
      exact unsubscribe_authors _ _ d true e
    · intro e
      rw [call, Call.apply, hbroadcast]
      exact unsubscribe_subscribers d true e
    · intro e
      rw [call, Call.apply, hmembership]
      exact contains_removeKey _ _ _

theorem afterWrite_broadcast (s : Cell κ) (d : String) (access : AccessScope) :
    (s.afterWrite d access).broadcast = if Cell.coversWrite access then
      { s.broadcast with authors := s.broadcast.authors.removeKey d } else s.broadcast := by
  unfold Cell.afterWrite
  split
  · rw [Cell.revokeWrite_eq]
  · rfl

theorem afterWrite_members (s : Cell κ) (d : String) (access : AccessScope) :
    (s.afterWrite d access).membership = s.membership := by
  unfold Cell.afterWrite
  split
  · rw [Cell.revokeWrite_eq]
  · rfl

theorem ban_authors (c : BroadcastContext κ) (draw : ℕ → κ) (d a : String) :
    (c.governanceBanSubscriber d draw).2.authors.contains a = c.authors.contains a :=
  Effect.contains_eq (Op.apply_effect (.governanceBanSubscriber d)) (fun _ he => by cases he)
    (fun _ he => by cases he) a

/-- A revocation that passes its checks keeps the members, takes the reader from the roster
if it covers reading, and the author from the authors if it covers writing. -/
theorem revoke_frame (s : Cell κ) (draw : ℕ → κ) (d : String) (access : AccessScope)
    (landed : Except RuntimeError Unit) (hok : (s.revokeChecks d).isOk = true) :
    (s.executeRevoke d access draw landed).2.membership = s.membership ∧
    (∀ e, (s.executeRevoke d access draw landed).2.broadcast.subscribers.contains e =
      (!(Cell.coversRead access && decide (e = d)) && s.broadcast.subscribers.contains e)) ∧
    ∀ e, (s.executeRevoke d access draw landed).2.broadcast.authors.contains e =
      (!(Cell.coversWrite access && decide (e = d)) && s.broadcast.authors.contains e) := by
  have hwritten : ∀ e, (s.afterWrite d access).broadcast.authors.contains e =
      (!(Cell.coversWrite access && decide (e = d)) && s.broadcast.authors.contains e) := by
    intro e
    rw [afterWrite_broadcast]
    cases Cell.coversWrite access with
    | false => simp
    | true => simp [contains_removeKey]
  have hroster : (s.afterWrite d access).broadcast.subscribers = s.broadcast.subscribers := by
    rw [afterWrite_broadcast]
    split <;> rfl
  rw [revoke_cell, if_pos hok]
  cases Cell.coversRead access with
  | false => exact ⟨afterWrite_members s d access, by simp [hroster], hwritten⟩
  | true =>
    rw [if_pos rfl]
    refine ⟨afterWrite_members s d access, ?_, ?_⟩
    · intro e
      dsimp only [Cell.revokeRead]
      rw [(Cell.governanceBan_frame draw _ d).2.2, contains_removeKey, hroster]
      simp
    · intro e
      dsimp only [Cell.revokeRead]
      rw [ban_authors, hwritten]

/-- Where writing is left to the author, or the member was none, a read revocation is the
ban alone. -/
theorem revoke_read_protocol {access : AccessScope} (hok : (w.cell.revokeChecks d).isOk = true)
    (hread : Cell.coversRead access = true)
    (hsame : Cell.coversWrite access = true → w.cell.broadcast.authors.contains d = false) :
    (call gen w (.revoke d access landed)).protocol =
      step gen w.protocol (.governanceBanSubscriber d) := by
  rw [revoke_protocol, Call.ops, if_pos hok, if_pos hread]
  cases hwrite : Cell.coversWrite access with
  | false => rfl
  | true =>
    have hnone := (get_eq_none_iff _ _).mpr ((contains_eq_false_iff _ _).mp (hsame hwrite))
    have hstep : step gen w.protocol (.blockAuthor d) = w.protocol := by
      rw [step_blockAuthor, Cell.revokeWrite_eq, Cell.removeKey_of_get_none hnone]
      rfl
    have hrun : run gen w.protocol ([.blockAuthor d] ++ [.governanceBanSubscriber d]) =
        step gen (step gen w.protocol (.blockAuthor d)) (.governanceBanSubscriber d) := rfl
    rw [if_pos rfl, hrun, hstep]

theorem Sound.revoke (h : Sound w) (hfresh : Fresh gen n w.protocol) {access : AccessScope}
    (hn : (call gen w (.revoke d access landed)).made ≤ n)
    (hsteady : Call.Steady w.cell (.revoke d access landed)) :
    Sound (call gen w (.revoke d access landed)) := by
  cases hok : (w.cell.revokeChecks d).isOk with
  | false =>
    have hcell : (w.cell.executeRevoke d access (w.protocol.draw gen) landed).2 = w.cell := by
      rw [revoke_cell, hok]
      rfl
    refine h.still hfresh _ hn ?_ ?_ ?_ <;> simp [call, Call.apply, hcell]
  | true =>
    obtain ⟨hmembers, hroster, hauthors⟩ :=
      revoke_frame w.cell (w.protocol.draw gen) d access landed hok
    have hin : ∀ e, Eligible (call gen w (.revoke d access landed)).cell.broadcast e →
        (call gen w (.revoke d access landed)).cell.membership.contains e = true := by
      intro e he
      simp only [call, Call.apply, Eligible] at he ⊢
      rw [hmembers]
      rcases he with he | he
      · rw [hroster, Bool.and_eq_true] at he
        exact h.roster e he.2
      · rw [hauthors, Bool.and_eq_true] at he
        exact h.authors e he.2
    by_cases hauthor : Cell.coversWrite access = true ∧ w.cell.broadcast.authors.contains d = true
    · -- The one author is gone, and with it every current key.
      have hnone : ∀ e, (call gen w (.revoke d access landed)).cell.broadcast.authors.contains e =
          false := by
        intro e
        simp only [call, Call.apply]
        rw [hauthors, hauthor.1, Bool.true_and]
        by_cases he : e = d
        · simp [he]
        · rw [decide_eq_false he, Bool.not_false, Bool.true_and, ← Bool.not_eq_true]
          exact fun hc => he (h.alone e d hc hauthor.2)
      refine ⟨fun e he => hin e (Or.inl he), fun e he => hin e (Or.inr he), ?_, ?_⟩
      · intro a b ha
        rw [hnone] at ha
        cases ha
      · intro e _ _ a x hx
        have hc := hnone a
        rw [contains_eq_isSome] at hc
        simp only [CellWorld.protocol] at hx
        rw [hx] at hc
        cases hc
    · have hsame : Cell.coversWrite access = true →
          w.cell.broadcast.authors.contains d = false := by
        intro hwrite
        rw [← Bool.not_eq_true]
        exact fun hc => hauthor ⟨hwrite, hc⟩
      have hkept : ∀ e, (call gen w (.revoke d access landed)).cell.broadcast.authors.contains e =
          w.cell.broadcast.authors.contains e := by
        intro e
        simp only [call, Call.apply]
        rw [hauthors]
        cases hwrite : Cell.coversWrite access with
        | false => simp
        | true =>
          by_cases he : e = d
          · subst he
            rw [hsame hwrite, Bool.and_false]
          · simp [he]
      refine h.next hfresh _ hn hkept hin ?_
      intro e he hnot
      cases hread : Cell.coversRead access with
      | false =>
        left
        simp only [call, Call.apply, Eligible] at he hnot
        rw [hmembers] at he
        rw [hroster, hread, not_or, Bool.false_and, Bool.not_false, Bool.true_and,
          Bool.not_eq_true] at hnot
        exact ⟨he, hnot.1⟩
      | true =>
        right
        have hprotocol : (Broadcast.call gen w (.revoke d access landed)).protocol =
            step gen w.protocol (.governanceBanSubscriber d) :=
          revoke_read_protocol hok hread hsame
        have hmade : (step gen w.protocol (.governanceBanSubscriber d)).made ≤ n := by
          rw [← hprotocol]
          exact hn
        rw [hprotocol]
        exact unreached_ban hfresh hmade (hsteady hread) e

theorem quiet_of_mem_ite {p : Prop} [Decidable p] {op o : Op}
    (h : o ∈ if p then [op] else []) (hquiet : op.quiet) : o.quiet := by
  split at h
  · rw [List.mem_singleton.mp h]
    exact hquiet
  · cases h

/-- One call keeps the membership around the readers and the authors. -/
theorem Sound.call (h : Sound w) (hfresh : Fresh gen n w.protocol) (c : Call)
    (hn : (call gen w c).made ≤ n) (hsteady : c.Steady w.cell) : Sound (call gen w c) := by
  -- The calls that are left do only quiet operations.
  have hquiet : (∀ op ∈ c.ops w.cell, op.quiet) →
      (∀ e, (Broadcast.call gen w c).cell.membership.contains e =
        w.cell.membership.contains e) → Sound (Broadcast.call gen w c) := by
    intro hops hmembers
    obtain ⟨hroster, hauthors⟩ := run_quiet gen w.protocol hops
    rw [← call_protocol] at hroster hauthors
    exact h.still hfresh c hn hauthors hroster hmembers
  cases c with
  | subscribe d admittance timestamp landed => exact h.subscribe hfresh hn
  | unsubscribe d rotateKeys landed => exact h.unsubscribe hfresh hn hsteady
  | leave caller d landed => exact h.leave hfresh hn hsteady
  | revoke d access landed => exact h.revoke hfresh hn hsteady
  | block a d landed =>
    refine hquiet (fun op hop => quiet_of_mem_ite hop trivial) (fun e => ?_)
    rw [Broadcast.call, Call.apply, block_cell]
    dsimp only
    split <;> rfl
  | unblock a d landed =>
    refine hquiet (fun op hop => quiet_of_mem_ite hop trivial) (fun e => ?_)
    rw [Broadcast.call, Call.apply, unblock_cell]
    dsimp only
    split <;> rfl
  | restoreAccess d capabilities landed =>
    refine hquiet (fun op hop => quiet_of_mem_ite hop trivial) (fun e => ?_)
    rw [Broadcast.call, Call.apply]
    dsimp only
    rw [(restore_cell w.cell d landed capabilities).1]
  | publish a timestamp faults =>
    exact hquiet (publishOps_quiet _ _ _ _) (publish_members w.cell a timestamp faults)
  | keyRequest localDids a d pubkey failure =>
    exact hquiet (fun op hop => quiet_of_mem_ite hop trivial) (fun _ => rfl)

end Steps

/-- A context is created with its creator as the first author. -/
def initBroadcastContext (contextId : String) (admission : BroadcastAdmission)
    (creatorDid : String) (draw : ℕ → κ) : BroadcastContext κ :=
  let new : BroadcastContext κ := ⟨contextId, admission, [], [], []⟩
  keptUnless new (new.addAuthor creatorDid draw)

def Cell.create (roleState : ContextRoleState) (minProtocolVersion : Option (ℕ × ℕ))
    (admission : BroadcastAdmission) (creatorDid : String) (tokens : List UcanToken)
    (draw : ℕ → κ) : Cell κ where
  active := true
  minProtocolVersion
  commitFault := none
  roleState
  membership := [(creatorDid, ⟨"admin", tokens, 0⟩)]
  readExclusionList := []
  broadcast := initBroadcastContext roleState.contextId admission creatorDid draw

/-- The world after a creation, which generates the first author's key. -/
def created (gen : ℕ → κ) (roleState : ContextRoleState) (minProtocolVersion : Option (ℕ × ℕ))
    (admission : BroadcastAdmission) (creatorDid : String) (tokens : List UcanToken) :
    CellWorld κ :=
  ⟨Cell.create roleState minProtocolVersion admission creatorDid tokens gen, 1, [], []⟩

/-- Each call is steady in the cell it is made in. -/
def SteadyRun (gen : ℕ → κ) : CellWorld κ → List Call → Prop
  | _, [] => True
  | w, c :: cs => c.Steady w.cell ∧ SteadyRun gen (call gen w c) cs

theorem calls_append (gen : ℕ → κ) (w : CellWorld κ) (before after : List Call) :
    calls gen w (before ++ after) = calls gen (calls gen w before) after :=
  List.foldl_append

theorem calls_made_le (gen : ℕ → κ) (w : CellWorld κ) (cs : List Call) :
    w.made ≤ (calls gen w cs).made := by
  induction cs generalizing w with
  | nil => exact Nat.le_refl _
  | cons c cs ih => exact (Nat.le_add_right _ _).trans (ih (call gen w c))

theorem SteadyRun.append {before after : List Call} (h : SteadyRun gen w (before ++ after)) :
    SteadyRun gen w before ∧ SteadyRun gen (calls gen w before) after := by
  induction before generalizing w with
  | nil => exact ⟨trivial, h⟩
  | cons c before ih => exact ⟨⟨h.1, (ih h.2).1⟩, (ih h.2).2⟩

theorem Fresh.calls (h : Fresh gen n w.protocol) (cs : List Call) :
    Fresh gen n (calls gen w cs).protocol := by
  induction cs generalizing w with
  | nil => exact h
  | cons c cs ih => exact ih (h.call c)

theorem Sound.calls (h : Sound w) (hfresh : Fresh gen n w.protocol) {cs : List Call}
    (hn : (calls gen w cs).made ≤ n) (hsteady : SteadyRun gen w cs) : Sound (calls gen w cs) := by
  induction cs generalizing w with
  | nil => exact h
  | cons c cs ih =>
    have hstep : (Broadcast.call gen w c).made ≤ n := (calls_made_le gen _ cs).trans hn
    exact ih (h.call hfresh c hstep hsteady.1) (hfresh.call c) hn hsteady.2

section Creation
variable (gen) (roleState : ContextRoleState) (minProtocolVersion : Option (ℕ × ℕ))
  (admission : BroadcastAdmission) (creatorDid : String) (tokens : List UcanToken)

theorem created_authors :
    (created gen roleState minProtocolVersion admission creatorDid tokens).cell.broadcast.authors =
      [(creatorDid, .new creatorDid (gen 0))] := rfl

theorem created_fresh (hdistinct : ∀ i j, i < n → j < n → gen i = gen j → i = j) :
    Fresh gen n (created gen roleState minProtocolVersion admission creatorDid tokens).protocol where
  apart := hdistinct
  unheld := by
    intro i hmade hi did a ha
    have hkey : a.broadcastKey = gen 0 := by
      simp only [CellWorld.protocol, created_authors, get_cons] at ha
      split at ha
      · cases ha
        rfl
      · cases ha
    rw [hkey]
    intro he
    have hzero := hdistinct 0 i (by omega) hi he
    simp only [CellWorld.protocol, created] at hmade
    omega
  unsent := by
    intro i _ _ g hg
    cases hg

theorem created_sound : Sound (created gen roleState minProtocolVersion admission creatorDid tokens) := by
  have hauthors : ∀ e, (created gen roleState minProtocolVersion admission creatorDid
      tokens).cell.broadcast.authors.contains e = decide (creatorDid = e) := by
    intro e
    rw [created_authors]
    simp [contains]
  refine ⟨?_, ?_, ?_, ?_⟩
  · intro e he
    cases he
  · intro e he
    rw [hauthors, decide_eq_true_eq] at he
    simp [created, Cell.create, contains, he]
  · intro a b ha hb
    rw [hauthors, decide_eq_true_eq] at ha hb
    exact ha.symm.trans hb
  · intro e _ _ a x _ g hg
    cases hg

end Creation

theorem ops_addAuthor (s : Cell κ) (c : Call) : ∀ op ∈ c.ops s, ∀ a, op ≠ .addAuthor a := by
  rintro op hop a rfl
  cases c with
  | publish b timestamp faults =>
    rcases mem_publishOps hop with h | ⟨sequence, h⟩ | ⟨sequence, h⟩ <;> cases h
  | revoke d access landed =>
    cases access <;> simp only [Call.ops, Cell.coversWrite, Cell.coversRead] at hop <;>
      split at hop <;> simp at hop
  | _ =>
    simp only [Call.ops] at hop
    split at hop <;> simp at hop

/-- No call makes an author. -/
theorem call_authors (gen : ℕ → κ) (w : CellWorld κ) (c : Call) {a : String}
    (h : w.cell.broadcast.authors.contains a = false) :
    (call gen w c).cell.broadcast.authors.contains a = false := by
  have hrun : ∀ ops : List Op, (∀ op ∈ ops, ∀ b, op ≠ .addAuthor b) → ∀ p : World κ,
      p.ctx.authors.contains a = false → (run gen p ops).ctx.authors.contains a = false := by
    intro ops
    induction ops with
    | nil => exact fun _ _ hp => hp
    | cons op ops ih =>
      intro hops p hp
      refine ih (fun o ho => hops o (List.mem_cons_of_mem op ho)) (step gen p op) ?_
      rw [← Bool.not_eq_true] at hp ⊢
      intro ha
      exact hp ((Op.apply_effect op).contains_of_contains (hops op List.mem_cons_self) ha)
  have hend := hrun (c.ops w.cell) (ops_addAuthor w.cell c) w.protocol h
  rw [← call_protocol] at hend
  exact hend

/-- A member who leaves was not sent any key in use. -/
theorem Sound.unreached_leave (h : Sound w) (hfresh : Fresh gen n w.protocol) {caller : String}
    {landed : Except RuntimeError Unit}
    (hn : (Broadcast.call gen w (.leave caller d landed)).made ≤ n)
    (hsteady : Call.Steady w.cell (.leave caller d landed))
    (hok : (w.cell.leaveContext caller d (w.protocol.draw gen) landed).1 = .ok ()) :
    Unreached d (Broadcast.call gen w (.leave caller d landed)).protocol := by
  obtain ⟨hd, hroom⟩ := hsteady
  obtain ⟨hchecks, -, hmember⟩ := leave_ok w.cell (w.protocol.draw gen) d landed hok
  cases hroster : w.cell.broadcast.subscribers.contains d with
  | true =>
    have hstep : (Broadcast.call gen w (.leave caller d landed)).protocol =
        step gen w.protocol (.unsubscribe d true) := by
      rw [call_protocol, Call.ops, if_pos hchecks]
      rfl
    have hmade : (step gen w.protocol (.unsubscribe d true)).made ≤ n := by
      rw [← hstep]
      exact hn
    rw [hstep]
    exact unreached_unsubscribe hfresh hmade hroom hroster d
  | false =>
    have hnot : ¬ Eligible w.cell.broadcast d := by
      rw [Eligible, hroster, hd]
      simp
    exact (h.clean d hmember hnot).call hfresh _ hn hnot

/-- As long as the departed stays off the roster, nothing is sealed that it can read. -/
theorem Apart.calls {since : ℕ} (h : Apart d since w.protocol) (hfresh : Fresh gen n w.protocol)
    {cs : List Call} (hn : (calls gen w cs).made ≤ n)
    (hauthor : w.cell.broadcast.authors.contains d = false)
    (haway : ∀ k, (calls gen w (cs.take k)).cell.broadcast.subscribers.contains d = false) :
    Apart d since (calls gen w cs).protocol := by
  induction cs generalizing w with
  | nil => exact h
  | cons c cs ih =>
    have hstep : (Broadcast.call gen w c).made ≤ n := (calls_made_le gen _ cs).trans hn
    have hnot : ¬ Eligible w.cell.broadcast d := by
      have hnow : w.cell.broadcast.subscribers.contains d = false := haway 0
      rw [Eligible, hnow, hauthor]
      simp
    exact ih (h.call hfresh c hstep hnot) (hfresh.call c) hn (call_authors gen w c hauthor)
      (fun k => haway (k+1))

/-- In a run from creation in which no author departs, and no epoch is exhausted where a
departure or a revocation is to rotate the keys, a key is granted to members alone; and from
a leave that succeeds until the departed is on the roster again, nothing is sealed under a key
it was ever granted. -/
theorem departure_ends_reading (gen : ℕ → κ) (roleState : ContextRoleState)
    (minProtocolVersion : Option (ℕ × ℕ)) (admission : BroadcastAdmission) (creatorDid : String)
    (tokens : List UcanToken) (cs : List Call) (w : CellWorld κ)
    (hstart : w = created gen roleState minProtocolVersion admission creatorDid tokens)
    (hdistinct : ∀ i j, i < (calls gen w cs).made → j < (calls gen w cs).made →
      gen i = gen j → i = j)
    (hsteady : SteadyRun gen w cs) :
    (∀ localDids a d pubkey failure key wrapping epoch,
      (calls gen w cs).cell.handleBroadcastKeyRequest localDids a d pubkey failure =
        .ok (.grant key wrapping epoch) → (calls gen w cs).cell.membership.contains d = true) ∧
    ∀ before caller d landed after, cs = before ++ .leave caller d landed :: after →
      ((calls gen w before).cell.leaveContext caller d ((calls gen w before).protocol.draw gen)
        landed).1 = .ok () →
      (∀ k, (calls gen w (before ++ .leave caller d landed ::
        after.take k)).cell.broadcast.subscribers.contains d = false) →
      ∀ s ∈ (calls gen w cs).sealings.drop (calls gen w before).sealings.length,
        ∀ g ∈ (calls gen w cs).grants, g.requesterDid = d → g.key ≠ s.envelope.key := by
  have hfresh : Fresh gen (calls gen w cs).made w.protocol := by
    rw [hstart] at hdistinct ⊢
    exact created_fresh gen _ _ _ _ _ hdistinct
  have hsound : Sound w := by
    rw [hstart]
    exact created_sound gen _ _ _ _ _
  constructor
  · intro localDids a d pubkey failure key wrapping epoch hgrant
    have hend := hsound.calls hfresh (Nat.le_refl _) hsteady
    have heligible : Eligible (calls gen w cs).cell.broadcast d := by
      simp only [Cell.handleBroadcastKeyRequest, bind_ok_iff] at hgrant
      obtain ⟨-, -, hgrant⟩ := hgrant
      split at hgrant
      · cases hgrant
      · split at hgrant
        · cases hgrant
        · exact eligible_of_grant (Except.ok.inj hgrant)
    rcases heligible with hroster | hauthor
    · exact hend.roster d hroster
    · exact hend.authors d hauthor
  · rintro before caller d landed after rfl hok haway
    have hrun : ∀ rest, calls gen w (before ++ .leave caller d landed :: rest) =
        calls gen (call gen (calls gen w before) (.leave caller d landed)) rest := by
      intro rest
      rw [calls_append]
      rfl
    simp only [hrun] at haway ⊢
    rw [hrun] at hfresh
    obtain ⟨hbefore, hleave, -⟩ := hsteady.append
    have hfresh' := hfresh.calls before
    have hmade := calls_made_le gen (call gen (calls gen w before) (.leave caller d landed)) after
    have hsound' := hsound.calls hfresh
      ((Nat.le_add_right _ _).trans hmade) hbefore
    have hstart : Apart d (calls gen w before).sealings.length
        (call gen (calls gen w before) (.leave caller d landed)).protocol := by
      refine ⟨hsound'.unreached_leave hfresh' hmade hleave hok, ?_, ?_⟩
      · simp [CellWorld.protocol, call, Call.seals]
      · intro s hs
        simp [CellWorld.protocol, call, Call.seals] at hs
    exact (hstart.calls (hfresh'.call _) (Nat.le_refl _) (call_authors gen _ _ hleave.1)
      haway).sealed_

end Runtime

-- A reader who leaves and an author who leaves.

def sampleCreated : CellWorld ℕ :=
  created id sampleCell.roleState none .public_ "alice" []

def sampleJoin : List Call :=
  [.subscribe "bob" ⟨false, none⟩ 1 (.ok ()), .keyRequest ["alice"] "alice" "bob" [] none,
    .keyRequest ["alice"] "alice" "alice" [] none]

def samplePublish : Call := .publish "alice" 2 ⟨.ok (), .ok (), none, .ok ()⟩

/-- The reader was sent the key of before it left, and what is sealed after is under another. -/
theorem departure_ends_reading_sample :
    let cs := sampleJoin ++ .leave "bob" "bob" (.ok ()) :: [samplePublish]
    ((calls id sampleCreated cs).grants.map (fun g => (g.requesterDid, g.key)) =
        [("bob", 0), ("alice", 0)] ∧
      (calls id sampleCreated cs).sealings.map (fun s => s.envelope.key) = [1]) ∧
    ∀ s ∈ (calls id sampleCreated cs).sealings.drop
        (calls id sampleCreated sampleJoin).sealings.length,
      ∀ g ∈ (calls id sampleCreated cs).grants, g.requesterDid = "bob" →
        g.key ≠ s.envelope.key := by
  intro cs
  refine ⟨by decide +kernel, ?_⟩
  have hroom : ∀ e ∈ (calls id sampleCreated sampleJoin).cell.broadcast.authors,
      e.2.epoch ≠ u64Max := by decide +kernel
  refine (departure_ends_reading id _ _ _ _ _ cs sampleCreated rfl (fun i j _ _ h => h) ?_).2
    sampleJoin "bob" "bob" (.ok ()) [samplePublish] rfl (by decide +kernel) ?_
  · exact ⟨trivial, trivial, trivial, ⟨by decide +kernel, hroom⟩, trivial, trivial⟩
  · intro k
    rcases k with _ | k
    · decide +kernel
    · rw [List.take_succ_cons, List.take_nil]
      decide +kernel

/-- The author leaves, is no member, and is granted the key it goes on sealing under. -/
theorem departed_author_reads_on :
    let left := calls id sampleCreated (sampleJoin ++ [.leave "alice" "alice" (.ok ())])
    let later := calls id left [samplePublish]
    (((calls id sampleCreated sampleJoin).cell.leaveContext "alice" "alice"
        ((calls id sampleCreated sampleJoin).protocol.draw id) (.ok ())).1 = .ok () ∧
      left.cell.membership.contains "alice" = false ∧
      left.cell.handleBroadcastKeyRequest ["alice"] "alice" "alice" [] none =
        .ok (.grant 0 [] 0)) ∧
    (later.cell.broadcast.subscribers.contains "alice" = false ∧
      (later.sealings.drop left.sealings.length).map (fun s => (s.authorDid, s.envelope.key)) =
        [("alice", 0)] ∧
      (⟨"alice", "alice", 0⟩ : Grant ℕ) ∈ later.grants) := by
  decide +kernel

end ScpCore.Broadcast
