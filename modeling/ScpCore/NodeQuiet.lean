import ScpCore.NodeInterleaving

/-! Runs of interleaved publishes. A write is followed by the selections it changes: its
task owes them, and gives its locks back only when they are in place. So once no write is
in flight nothing is owed, and every routing id stores what its selection keeps. -/

namespace ScpCore.Records
open Kel

section Writes
variable {N : Setting} {s : State} {ledgers : TaskId → Ledger} {id : TaskId} {task : Task}
  {routing top : RoutingId} {reads : Reads} {write : List StoredBlob → List StoredBlob}

/-- Key-event records are selected with the log they are admitted to. -/
theorem settled_did (view : View) (identifier : Identifier) : Settled N view (.did identifier) :=
  ⟨⟨view (.did identifier), (view (.did identifier)).map (·.blobId)⟩, rfl, fun _ => Iff.rfl⟩

/-- A write at what a selection reads is followed by that selection, unless it strands a
conflict frame. -/
theorem Others.affected (h : Others N top reads routing)
    (hreads : Agrees (loadRetained s.storage) reads)
    (hlive : ∀ subject, top = .wcf subject → s.storage.retainedAt (.wcf subject) ≠ [] ∨
      s.holder (.retained (.wcf subject)) ≠ none)
    (hstrands : ¬ Strands N s routing) : top ∈ Records.affected N routing := by
  cases top with
  | did identifier => exact h.elim
  | svc identifier =>
    rw [show routing = .did identifier from h]
    exact .inl rfl
  | nls contextId =>
    obtain ⟨governor, hpinned, rfl⟩ := h
    exact .inr (.inr ⟨contextId, hpinned, rfl⟩)
  | wcf subject =>
    rcases h with rfl | hlist | ⟨pin, hpin, held, hheld, operator, hnames, rfl⟩
    · exact .inr (.inl rfl)
    · exact absurd ⟨subject, hlive subject rfl, .inl hlist⟩ hstrands
    · by_cases hself : operator = subject
      · exact .inr (.inl (by rw [hself]))
      · -- The list that names the operator is still stored.
        refine absurd ⟨subject, hlive subject rfl, .inr ⟨operator, hself, rfl, pin, hpin, ?_⟩⟩
          hstrands
        obtain ⟨blob, hblob, hrecord⟩ := hnames
        rw [← show loadRetained s.storage (.nls pin.contextId) = held from hreads _ hheld,
          mem_loadRetained] at hblob
        exact ⟨blob, hblob, hrecord⟩

theorem mem_rewrite_iff {read : RoutingId × List StoredBlob} :
    read ∈ rewrite routing write reads ↔ ∃ old ∈ reads,
      read = if old.1 = routing then (old.1, write old.2) else old := by
  rw [rewrite, List.mem_map]
  exact exists_congr (fun old => and_congr_right (fun _ => eq_comm))

/-- The write of a task is at none of the node lists its selection reads. -/
theorem Others.rewrite {input : RoutingId} (h : Others N routing reads input) :
    Others N routing (Records.rewrite routing write reads) input := by
  cases routing with
  | did _ => exact h
  | svc _ => exact h
  | nls _ => exact h
  | wcf _ =>
    rcases h with h | h | ⟨pin, hpin, held, hheld, h⟩
    · exact .inl h
    · exact .inr (.inl h)
    · refine .inr (.inr ⟨pin, hpin, held, mem_rewrite_iff.mpr ⟨_, hheld, ?_⟩, h⟩)
      rw [if_neg (by simp)]

/-- What the writing task has seen, it sees changed by its write. -/
theorem seenBy_wrote (task : Task) {storage : Storage} {next : Action Outcome} {g : Ledger} {seen : Seen}
    (hmem : seen ∈ seenBy (g.wrote N routing write) ⟨next, .start⟩)
    (hsame : ∀ r, r ≠ routing → storage.retainedAt r = s.storage.retainedAt r)
    (hwrite : loadRetained storage routing = write (loadRetained s.storage routing)) :
    seen.Holds storage ∨ ∃ old ∈ seenBy g task, old.routing = seen.routing ∧
      (old.Holds s.storage → seen.Holds storage) := by
  rcases mem_seenBy.mp hmem with ⟨read, hread, rfl⟩ | hwalking
  · obtain ⟨old, hold, rfl⟩ := mem_rewrite_iff.mp hread
    refine .inr ⟨.whole old.1 old.2, mem_seenBy.mpr (.inl ⟨old, hold, rfl⟩), ?_⟩
    by_cases hrouting : old.1 = routing
    · rw [if_pos hrouting]
      refine ⟨rfl, fun hholds => ?_⟩
      rw [Seen.Holds, hrouting] at hholds ⊢
      rw [hwrite, hholds]
    · rw [if_neg hrouting]
      exact ⟨rfl, fun hholds => hholds.congr (hsame _ hrouting)⟩
  · exact .inl (walking_start seen hwalking)

/-- The task after its own write. -/
theorem Knows.wrote {storage : Storage} {rest : List RoutingId} {next : Action Outcome}
    (h : Knows N s.storage ledgers id task) (hstack : (ledgers id).stack = routing :: rest)
    (hsame : ∀ r, r ≠ routing → storage.retainedAt r = s.storage.retainedAt r)
    (hwrite : loadRetained storage routing = write (loadRetained s.storage routing))
    (hsafe : next.Safe N ((ledgers id).wrote N routing write) Ends) :
    Knows N storage (Function.update ledgers id ((ledgers id).wrote N routing write)) id
      ⟨next, .start⟩ := by
  constructor
  case safe =>
    rw [Function.update_self]
    exact hsafe
  case inputs =>
    rw [Function.update_self]
    intro read hread
    obtain ⟨old, hold, rfl⟩ := mem_rewrite_iff.mp hread
    obtain ⟨top, rest', hstack', hinput⟩ := h.inputs old hold
    obtain ⟨rfl, rfl⟩ := List.cons.inj (hstack.symm.trans hstack')
    refine ⟨routing, rest, hstack, ?_⟩
    have hfirst : (if old.1 = routing then (old.1, write old.2) else old).1 = old.1 := by
      split_ifs <;> rfl
    rw [hfirst]
    exact hinput.imp_right Others.rewrite
  case belongs =>
    intro _ _ _ blob hblob
    cases hblob
  case own =>
    rw [Function.update_self]
    intro seen hmem hheld
    rcases seenBy_wrote task hmem hsame hwrite with hholds | ⟨old, hold, hrouting, himp⟩
    · exact hholds
    · exact himp (h.own old hold (by rw [hrouting]; exact hheld))
  case fresh =>
    rw [Function.update_self]
    intro top rest' hstack'
    rcases h.fresh top rest' hstack' with hall | hbesides
    · refine .inl (fun seen hmem => ?_)
      rcases seenBy_wrote task hmem hsame hwrite with hholds | ⟨old, hold, -, himp⟩
      · exact hholds
      · exact himp (hall old hold)
    · exact .inr (hbesides.update _)

/-- A task reads only what the selection under its last lock reads. -/
theorem Knows.input {storage : Storage} {rest : List RoutingId} {seen : Seen}
    (h : Knows N storage ledgers id task) (hstack : (ledgers id).stack = top :: rest)
    (hmem : seen ∈ seenBy (ledgers id) task) :
    seen.routing = top ∨ Others N top (ledgers id).reads seen.routing := by
  rcases mem_seenBy.mp hmem with ⟨read, hread, rfl⟩ | hwalking
  · obtain ⟨top', rest', hstack', hinput⟩ := h.inputs read hread
    obtain ⟨rfl, -⟩ := List.cons.inj (hstack.symm.trans hstack')
    exact hinput
  · have hsafe := h.safe
    unfold Task.walking at hwalking
    split at hwalking
    case h_1 input next haction =>
      rw [haction] at hsafe
      obtain ⟨top', rest', hstack', hinput, -⟩ := hsafe
      obtain ⟨rfl, -⟩ := List.cons.inj (hstack.symm.trans hstack')
      rw [List.mem_singleton.mp hwalking]
      exact hinput.imp_left And.left
    all_goals cases hwalking

/-- A task after another one's write at `routing`. -/
theorem Knows.wroteElsewhere {storage : Storage} {other : TaskId} {g : Ledger}
    (h : Inv N s ledgers) (htask : s.tasks other = some task) (hother : other ≠ id)
    (hheld : routing ∈ (ledgers id).stack)
    (howed : (ledgers id).owed ∪ affected N routing ⊆ g.owed)
    (hsame : ∀ r, r ≠ routing → storage.retainedAt r = s.storage.retainedAt r)
    (hstrands : ¬ Strands N s routing) :
    Knows N storage (Function.update ledgers id g) other task := by
  have hknows := h.knows other task htask
  have hself : Function.update ledgers id g other = ledgers other := Function.update_of_ne hother _ _
  have hbesides {r : RoutingId} (hr : OwedBesides ledgers other r) :
      OwedBesides (Function.update ledgers id g) other r := by
    obtain ⟨payer, hpayer, hr⟩ := hr
    refine ⟨payer, hpayer, ?_⟩
    by_cases hid : payer = id
    · rw [hid] at hr ⊢
      rw [Function.update_self]
      exact howed (.inl hr)
    · rw [Function.update_of_ne hid]
      exact hr
  have hne {r : RoutingId} (hr : r ∈ (ledgers other).stack) : r ≠ routing := by
    rintro rfl
    exact hother (h.free hr hheld)
  constructor
  case safe =>
    rw [hself]
    exact hknows.safe
  case inputs =>
    rw [hself]
    exact hknows.inputs
  case belongs => exact hknows.belongs
  case own =>
    rw [hself]
    intro seen hmem hown
    exact (hknows.own seen hmem hown).congr (hsame _ (hne hown))
  case fresh =>
    rw [hself]
    intro top rest hstack
    have htop : top ∈ (ledgers other).stack := by
      rw [hstack]
      exact List.mem_cons_self
    rcases hknows.fresh top rest hstack with hall | hr
    · by_cases hread : ∃ seen ∈ seenBy (ledgers other) task, seen.routing = routing
      · -- The write changed what the task has seen, so its writer owes the selection.
        obtain ⟨seen, hmem, rfl⟩ := hread
        have hothers := (hknows.input hstack hmem).resolve_left (fun heq => hne htop heq.symm)
        refine .inr ⟨id, Ne.symm hother, ?_⟩
        rw [Function.update_self]
        refine howed (.inr (hothers.affected ?_ ?_ hstrands))
        · exact fun read hread => hall _ (mem_seenBy.mpr (.inl ⟨read, hread, rfl⟩))
        · rintro subject rfl
          rw [(h.locks other (.wcf subject)).mp htop]
          exact .inr (Option.some_ne_none other)
      · refine .inl (fun seen hmem => (hall seen hmem).congr (hsame _ ?_))
        exact fun heq => hread ⟨seen, hmem, heq⟩
    · exact .inr (hbesides hr)

/-- A selection stays in place through a write that does not affect it. -/
theorem Settled.keep {storage : Storage} {r : RoutingId} (h : Settled N (loadRetained s.storage) r)
    (hsound : s.storage.Sound N)
    (hsame : ∀ r, r ≠ routing → storage.retainedAt r = s.storage.retainedAt r)
    (hstrands : ¬ Strands N s routing) (hr : r ∉ affected N routing) :
    Settled N (loadRetained storage) r := by
  have hview {input : RoutingId} (hinput : input ≠ routing) :
      loadRetained storage input = loadRetained s.storage input := by
    rw [loadRetained, loadRetained, hsame input hinput]
  by_cases hdid : ∃ identifier, r = .did identifier
  · obtain ⟨identifier, rfl⟩ := hdid
    exact settled_did _ identifier
  have hne : r ≠ routing := by
    rintro rfl
    cases r with
    | did identifier => exact hdid ⟨identifier, rfl⟩
    | svc _ => exact hr rfl
    | nls _ => exact hr rfl
    | wcf _ => exact hr rfl
  by_cases hempty : loadRetained s.storage r = []
  · exact settled_empty ((hview hne).trans hempty)
  obtain ⟨selection, hread, hids⟩ := h
  refine ⟨selection, ?_, hids⟩
  rw [← hread]
  apply (loads_selectionAt r).read_congr hsound.view (by simp [Agrees])
  intro reads' input hagrees hinput
  apply hview
  rintro rfl
  rcases hinput with rfl | hothers
  · exact hne rfl
  · refine hr (hothers.affected hagrees ?_ hstrands)
    rintro subject rfl
    refine .inl (fun hnil => hempty ?_)
    rw [loadRetained, hnil]
    rfl

theorem Inv.wrote (h : Inv N s ledgers) {storage : Storage} {rest : List RoutingId}
    {next : Action Outcome} (htask : s.tasks id = some task)
    (hstack : (ledgers id).stack = routing :: rest) (hsound : storage.Sound N)
    (hdistinct : storage.Distinct)
    (hsame : ∀ r, r ≠ routing → storage.retainedAt r = s.storage.retainedAt r)
    (hwrite : loadRetained storage routing = write (loadRetained s.storage routing))
    (hstrands : ¬ Strands N s routing)
    (hsafe : next.Safe N ((ledgers id).wrote N routing write) Ends) :
    Inv N ⟨storage, s.locks, Function.update s.tasks id (some ⟨next, .start⟩)⟩
      (Function.update ledgers id ((ledgers id).wrote N routing write)) := by
  have hheld : routing ∈ (ledgers id).stack := by
    rw [hstack]
    exact List.mem_cons_self
  have hstacks (other : TaskId) :
      (Function.update ledgers id ((ledgers id).wrote N routing write) other).stack =
        (ledgers other).stack := by
    by_cases hother : other = id
    · rw [hother, Function.update_self]
      rfl
    · rw [Function.update_of_ne hother]
  constructor
  case sound => exact hsound
  case distinct => exact hdistinct
  case locks =>
    intro other r
    rw [hstacks]
    exact h.locks other r
  case nodup =>
    intro other
    rw [hstacks]
    exact h.nodup other
  case idle =>
    intro other hnone
    dsimp only at hnone
    by_cases hother : other = id
    · rw [hother, Function.update_self] at hnone
      cases hnone
    · rw [Function.update_of_ne hother] at hnone ⊢
      exact h.idle other hnone
  case knows =>
    intro other task' htask'
    dsimp only at htask'
    by_cases hother : other = id
    · subst hother
      rw [Function.update_self] at htask'
      cases htask'
      exact (h.knows other task htask).wrote hstack hsame hwrite hsafe
    · rw [Function.update_of_ne hother] at htask'
      exact Knows.wroteElsewhere h htask' hother hheld (Set.Subset.refl _) hsame hstrands
  case settled =>
    intro r
    by_cases hr : r ∈ affected N routing
    · refine .inr ⟨id, ?_⟩
      rw [Function.update_self]
      exact .inr hr
    · rcases h.settled r with hsettled | ⟨other, hother⟩
      · exact .inl (hsettled.keep h.sound hsame hstrands hr)
      · refine .inr ⟨other, ?_⟩
        by_cases hid : other = id
        · rw [hid] at hother ⊢
          rw [Function.update_self]
          exact .inl hother
        · rw [Function.update_of_ne hid]
          exact hother

theorem Inv.store (h : Inv N s ledgers) {blobId : BlobId} {admission now : ℕ}
    {next : StoredBlob → Action Outcome} (htask : s.tasks id = some task)
    (haction : task.action = .store routing blobId admission next)
    (hstrands : ¬ Strands N s routing) :
    ∃ ledgers', Inv N (State.continue_
      { s with storage := s.storage.store ⟨routing, blobId, .retained admission, now⟩ } id
      (next ⟨routing, blobId, .retained admission, now⟩)) ledgers' := by
  have hknows := h.knows id task htask
  have hsafe := hknows.safe
  rw [haction] at hsafe
  obtain ⟨rest, held, hstack, hread, hnew, hlast, hsafe⟩ := hsafe
  obtain ⟨hbelongs, hsafe⟩ := hsafe now
  have hheld : loadRetained s.storage routing = held := by
    refine hknows.own _ (mem_seenBy.mpr (.inl ⟨_, hread, rfl⟩)) ?_
    rw [hstack]
    exact List.mem_cons_self
  subst hheld
  refine ⟨_, h.wrote htask hstack (h.sound.store hbelongs) (h.distinct.store _) ?_ ?_ hstrands hsafe⟩
  · exact fun r hr => retainedAt_store_ne h.sound hbelongs hr
  · exact loadRetained_store h.distinct rfl hnew hlast

theorem Inv.delete (h : Inv N s ledgers) {blobId : BlobId} {next : Action Outcome}
    (htask : s.tasks id = some task) (haction : task.action = .delete blobId next)
    (hstrands : ¬ Strands N s (N.content blobId).routingId) :
    ∃ ledgers', Inv N (State.continue_ { s with storage := s.storage.delete blobId } id next)
      ledgers' := by
  have hsafe := (h.knows id task htask).safe
  rw [haction] at hsafe
  obtain ⟨rest, hstack, hsafe⟩ := hsafe
  refine ⟨_, h.wrote htask hstack (h.sound.delete blobId) (h.distinct.delete blobId) ?_ ?_ hstrands
    hsafe⟩
  · exact fun r hr => retainedAt_delete_ne h.sound hr
  · exact loadRetained_delete h.distinct blobId

theorem Inv.step (h : Inv N s ledgers) {event : Event} {s' : State}
    (hstep : s.step N event = some s') (hsteady : Steady N s event) :
    ∃ ledgers', Inv N s' ledgers' := by
  cases event with
  | publish id blobId =>
    rw [State.step, Option.ite_none_right_eq_some, Option.isNone_iff_eq_none,
      Option.some.injEq] at hstep
    obtain ⟨htask, rfl⟩ := hstep
    exact ⟨ledgers, h.publish htask blobId⟩
  | run id now =>
    rw [State.step, Option.bind_eq_some_iff] at hstep
    obtain ⟨task, htask, hrun⟩ := hstep
    obtain ⟨hreplays, hstrands⟩ := hsteady task htask
    unfold State.runTask at hrun
    cases haction : task.action with
    | pure outcome =>
      rw [haction] at hrun
      obtain rfl := Option.some.inj hrun
      exact ⟨_, h.finish htask haction⟩
    | lock key next =>
      rw [haction, Option.ite_none_right_eq_some, Option.some.injEq] at hrun
      obtain ⟨hfree, rfl⟩ := hrun
      exact h.lock htask haction hfree
    | unlock key next =>
      rw [haction] at hrun
      obtain rfl := Option.some.inj hrun
      exact h.unlock htask haction
    | load routing next =>
      rw [haction] at hrun
      obtain rfl := Option.some.inj hrun
      exact h.query htask haction (fun hreselects => hreplays hreselects routing next haction)
    | get blobId next =>
      rw [haction] at hrun
      obtain rfl := Option.some.inj hrun
      exact ⟨ledgers, h.get htask haction⟩
    | store routing blobId admission next =>
      rw [haction] at hrun hstrands
      obtain rfl := Option.some.inj hrun
      exact h.store htask haction (hstrands routing rfl)
    | delete blobId next =>
      rw [haction] at hrun hstrands
      obtain rfl := Option.some.inj hrun
      exact h.delete htask haction (hstrands _ rfl)

end Writes

section Runs
variable (N : Setting)

/-- A store that holds no public record. -/
structure Storage.Blank (storage : Storage) : Prop where
  distinct : storage.Distinct
  notRetained : ∀ blob ∈ storage, blob.lifetime.isRetained = false

/-- The states a node comes to from a blank store, by steps that each meet `meets`. -/
inductive Reached (meets : State → Event → Prop) : State → Prop
  | start {storage : Storage} (h : storage.Blank) : Reached meets ⟨storage, [], fun _ => none⟩
  | step {s s' : State} {event : Event} (h : Reached meets s) (hmeets : meets s event)
      (hstep : s.step N event = some s') : Reached meets s'

/-- At every service, pinned node-list and conflict routing id the stored records are
exactly those that its selection keeps. -/
structure StoresSelected (s : State) : Prop where
  service : ∀ identifier, Settled N (loadRetained s.storage) (.svc identifier)
  nodeList : ∀ pin ∈ N.nodeLists, Settled N (loadRetained s.storage) (.nls pin.contextId)
  conflicts : ∀ subject, Settled N (loadRetained s.storage) (.wcf subject)

variable {N} {s : State}

theorem inv_start {storage : Storage} (h : storage.Blank) :
    Inv N ⟨storage, [], fun _ => none⟩ (fun _ => ⟨[], [], ∅⟩) := by
  have hnone (blob : StoredBlob) (hblob : blob ∈ storage) : blob.lifetime.isRetained ≠ true := by
    rw [h.notRetained blob hblob]
    simp
  constructor
  case sound => exact fun blob hblob hretained => absurd hretained (hnone blob hblob)
  case distinct => exact h.distinct
  case locks =>
    intro id routing
    simp [State.holder]
  case nodup => exact fun _ => List.nodup_nil
  case idle => exact fun _ _ => rfl
  case knows =>
    intro _ _ htask
    cases htask
  case settled =>
    intro routing
    have hempty : storage.retainedAt routing = [] := by
      apply List.filter_eq_nil_iff.mpr
      intro blob hblob
      simp [h.notRetained blob hblob]
    refine .inl (settled_empty ?_)
    rw [loadRetained, hempty]
    rfl

theorem Reached.inv (h : Reached N (Steady N) s) : ∃ ledgers, Inv N s ledgers := by
  induction h with
  | start h => exact ⟨_, inv_start h⟩
  | step _ hmeets hstep ih =>
    obtain ⟨ledgers, hinv⟩ := ih
    exact hinv.step hstep hmeets

/-- Once no write is in flight nothing is owed. -/
theorem quiet_storesSelected (h : Reached N (Steady N) s) (hquiet : s.Quiet) :
    StoresSelected N s := by
  obtain ⟨ledgers, hinv⟩ := h.inv
  have hall (routing : RoutingId) : Settled N (loadRetained s.storage) routing := by
    rcases hinv.settled routing with hsettled | ⟨id, hr⟩
    · exact hsettled
    · rw [hinv.idle id (hquiet id)] at hr
      cases hr
  exact ⟨fun _ => hall _, fun _ _ => hall _, fun _ => hall _⟩

end Runs

-- An operator is bound in a pinned node list, and a conflict frame is admitted on its word.
-- The next list of the governor leaves the operator out; the frame stays.

section Sample

/-- An inception that names the sample identity as its witness. -/
def sampleWatched : EventPreimage :=
  { sampleInception with
    keyState := some { sampleSnapshot [sampleEntry 1 .rootMember .current,
      sampleEntry 2 .active .current] 300 with witnesses := [sampleIdentifier] } }

def sampleSubject : Identifier := identifierOf sampleCrypto (fieldsOut sampleWatched)

/-- A key state of the subject at sequence 1. -/
def sampleTurn : EventPreimage where
  kind := .keyState
  identifier := sampleSubject
  sequence := 1
  predecessorDigest := eventDigestOf sampleCrypto (fieldsOut sampleWatched)
  standingRoot := none
  signerGroups := [⟨[0], [.raw]⟩]
  revealedKeys := []
  installedRootSet := none
  keyState := some { sampleSnapshot [sampleEntry 1 .rootMember .current,
    sampleEntry 2 .active .current] 600 with witnesses := [sampleIdentifier] }
  seals := []
  continuation := none

/-- The record frame of an identifier's events from the first on. -/
def frameOf (identifier : Identifier) (units : List Bytes) : Bytes :=
  [Node.keyEventFrameVersion] ++ beBytes 32 identifier.toNat ++ beBytes 8 0 ++
    beBytes 8 (units.length-1) ++ beBytes 4 units.length ++ units.flatten

def operatorFrame : Node.KeyEventFrame :=
  okGet (Node.decodeKeyEventFrame sampleCrypto
    (frameOf sampleIdentifier [sampleUnit sampleInception 1])) (by decide +kernel)

def subjectFrame : Node.KeyEventFrame :=
  okGet (Node.decodeKeyEventFrame sampleCrypto
    (frameOf sampleSubject [sampleUnit sampleWatched 1, sampleUnit sampleTurn 1]))
    (by decide +kernel)

def sampleBinding : NodeBinding where
  operator := sampleIdentifier
  nodeKey := 6
  urlHash := sampleCrypto.sha256 []
  keyStateHead := eventDigestOf sampleCrypto (fieldsOut sampleInception)
  operatorSig := 0
  possessionSig := 0

def sampleNodeList (sequence : U64) (entries : List NodeListEntry) : NodeListRecord where
  contextId := "fleet"
  sequence := sequence
  governor := sampleIdentifier
  signingKeyStateHead := eventDigestOf sampleCrypto (fieldsOut sampleInception)
  entries := entries
  signature := 0

def sampleStatement : ConflictStatement where
  witness := sampleCrypto.sha256 (nodeIdSeparator ++ pointOut 6)
  subject := sampleSubject
  heldSequence := 0
  heldDigest := eventDigestOf sampleCrypto (fieldsOut sampleWatched)
  offeredSequence := 1
  offeredDigest := eventDigestOf sampleCrypto (fieldsOut sampleTurn)
  observedAt := 9
  signature := 0

def sampleRecord : ℕ → Record
  | 0 => .keyEvents operatorFrame
  | 1 => .keyEvents subjectFrame
  | 2 => .nodeList (sampleNodeList 1 [⟨sampleBinding, []⟩])
  | 3 => .conflicts sampleSubject [sampleStatement]
  | _ => .nodeList (sampleNodeList 2 [])

def sampleSetting : Setting where
  crypto := sampleCrypto
  verifyPrehashStrict _ _ _ := true
  nodeListDigest _ := some 0
  content blobId := sampleRecord blobId.toNat
  quota := .unbounded
  nodeLists := [⟨"fleet", sampleIdentifier⟩]
  contextOrder _ := 0

/-- The publish of a record, and the operations it takes when no other runs. -/
def samplePublish (n steps : ℕ) : List Event :=
  .publish 0 (BitVec.ofNat 256 n) :: List.replicate steps (.run 0 0)

/-- Both identities, the node list that binds the operator, and the conflict frame. -/
def samplePublishes : List Event :=
  samplePublish 0 17 ++ samplePublish 1 14 ++ samplePublish 2 9 ++ samplePublish 3 11

def sampleStart : State := ⟨[], [], fun _ => none⟩

/-- The run of the events, as long as each step passes `check`. -/
def driven (check : State → Event → Bool) : List Event → State → Option State
  | [], s => some s
  | event :: rest, s =>
    if check s event then (s.step sampleSetting event).bind (driven check rest) else none

theorem driven_reached {meets : State → Event → Prop} {check : State → Event → Bool}
    (hcheck : ∀ s event, check s event = true → meets s event) {events : List Event} {s s' : State}
    (h : Reached sampleSetting meets s) (hrun : driven check events s = some s') :
    Reached sampleSetting meets s' := by
  induction events generalizing s with
  | nil =>
    cases hrun
    exact h
  | cons event rest ih =>
    rw [driven, Option.ite_none_right_eq_some, Option.bind_eq_some_iff] at hrun
    obtain ⟨hpass, next, hstep, hrun⟩ := hrun
    exact ih (h.step (hcheck s event hpass) hstep) hrun

theorem sampleStart_reached {meets : State → Event → Prop} :
    Reached sampleSetting meets sampleStart :=
  .start ⟨List.nodup_nil, fun _ hblob => nomatch hblob⟩

/-- Only the first task is in flight. -/
def Alone (s : State) : Prop := ∀ id, id ≠ 0 → s.tasks id = none

theorem Alone.update {s : State} (h : Alone s) (storage : Storage)
    (locks : List (LockKey × TaskId)) (task : Option Task) :
    Alone ⟨storage, locks, Function.update s.tasks 0 task⟩ := by
  intro id hid
  dsimp only
  rw [Function.update_of_ne hid]
  exact h id hid

theorem Alone.runTask {s s' : State} (h : Alone s) {now : ℕ} {task : Task}
    (hrun : s.runTask 0 now task = some s') : Alone s' := by
  unfold State.runTask at hrun
  split at hrun
  case h_2 =>
    rw [Option.ite_none_right_eq_some] at hrun
    obtain rfl := Option.some.inj hrun.2
    exact h.update _ _ _
  case h_4 =>
    obtain rfl := Option.some.inj hrun
    unfold State.query
    dsimp only
    split_ifs
    · exact h.update _ _ _
    · exact h.update _ _ _
  all_goals
    obtain rfl := Option.some.inj hrun
    exact h.update _ _ _

theorem Alone.step {s s' : State} (h : Alone s) {event : Event}
    (hevent : event = .run 0 0 ∨ ∃ blobId, event = .publish 0 blobId)
    (hstep : s.step sampleSetting event = some s') : Alone s' := by
  rcases hevent with rfl | ⟨blobId, rfl⟩
  · rw [State.step, Option.bind_eq_some_iff] at hstep
    obtain ⟨task, -, hrun⟩ := hstep
    exact h.runTask hrun
  · rw [State.step, Option.ite_none_right_eq_some] at hstep
    obtain rfl := Option.some.inj hstep.2
    exact h.update _ _ _

theorem Alone.driven {check : State → Event → Bool} {events : List Event} {s s' : State}
    (h : Alone s) (hevents : ∀ event ∈ events, event = .run 0 0 ∨ ∃ blobId, event = .publish 0 blobId)
    (hrun : Records.driven check events s = some s') : Alone s' := by
  induction events generalizing s with
  | nil =>
    cases hrun
    exact h
  | cons event rest ih =>
    rw [Records.driven, Option.ite_none_right_eq_some, Option.bind_eq_some_iff] at hrun
    obtain ⟨-, next, hstep, hrun⟩ := hrun
    apply ih (h.step (hevents event List.mem_cons_self) hstep) _ hrun
    exact fun e he => hevents e (List.mem_cons_of_mem _ he)

theorem driven_quiet {check : State → Event → Bool} {events : List Event} {s : State}
    (hevents : ∀ event ∈ events, event = .run 0 0 ∨ ∃ blobId, event = .publish 0 blobId)
    (hrun : driven check events sampleStart = some s) (hdone : s.tasks 0 = none) : s.Quiet := by
  have halone : Alone s := Alone.driven (fun _ _ => rfl) hevents hrun
  intro id
  by_cases hid : id = 0
  · rw [hid]
    exact hdone
  · exact halone id hid

theorem samplePublish_events (n steps : ℕ) : ∀ event ∈ samplePublish n steps,
    event = .run 0 0 ∨ ∃ blobId, event = .publish 0 blobId := by
  intro event hevent
  rcases List.mem_cons.mp hevent with rfl | hevent
  · exact .inr ⟨_, rfl⟩
  · exact .inl (List.eq_of_mem_replicate hevent)

theorem samplePublishes_events : ∀ event ∈ samplePublishes,
    event = .run 0 0 ∨ ∃ blobId, event = .publish 0 blobId := by
  intro event hevent
  simp only [samplePublishes, List.mem_append] at hevent
  rcases hevent with ((hevent | hevent) | hevent) | hevent
  all_goals exact samplePublish_events _ _ event hevent

/-- What the selection of the subject's conflict frames holds and keeps. -/
def sampleConflicts (s : State) : Option (List BlobId × List BlobId) :=
  match (selectionAt sampleSetting (.wcf sampleSubject)).run.read (loadRetained s.storage) with
  | some (.ok selection) => some (selection.held.map (·.blobId), selection.kept)
  | _ => none

/-- The next node list stores a frame that the selection no longer keeps. -/
theorem quiet_unselected : ∃ s, Reached sampleSetting (fun _ _ => True) s ∧ s.Quiet ∧
    ¬ StoresSelected sampleSetting s := by
  have hend : (driven (fun _ _ => true) (samplePublishes ++ samplePublish 4 11) sampleStart).any
      (fun s => (s.tasks 0).isNone && decide (sampleConflicts s = some ([3], []))) = true := by
    decide +kernel
  obtain ⟨s, hrun, hs⟩ := (Option.any_eq_true _ _).mp hend
  rw [Bool.and_eq_true, Option.isNone_iff_eq_none, decide_eq_true_eq] at hs
  obtain ⟨hdone, hconflicts⟩ := hs
  refine ⟨s, driven_reached (fun _ _ _ => trivial) sampleStart_reached hrun, ?_, ?_⟩
  · refine driven_quiet ?_ hrun hdone
    intro event hevent
    rcases List.mem_append.mp hevent with hevent | hevent
    · exact samplePublishes_events event hevent
    · exact samplePublish_events _ _ event hevent
  · intro hstored
    obtain ⟨selection, hread, hids⟩ := hstored.conflicts sampleSubject
    rw [sampleConflicts, hread] at hconflicts
    obtain ⟨hheld, hkept⟩ := Prod.mk.inj (Option.some.inj hconflicts)
    have hmem := (hids 3).mp (by rw [hheld]; exact List.mem_singleton.mpr rfl)
    rw [hkept] at hmem
    cases hmem

/-- No conflict frame is stored or being written. -/
def sampleClear (s : State) : Bool :=
  s.storage.all (fun blob => match blob.routingId with
    | .wcf _ => false
    | .did _ | .svc _ | .nls _ => true) &&
  s.locks.all (fun held => match held.1 with
    | .retained (.wcf _) => false
    | .retained (.did _) | .retained (.svc _) | .retained (.nls _) | .blob _ => true)

/-- A key-event load of the step replays, and a write finds no conflict frame or is one. -/
def sampleCalm (s : State) : Event → Bool
  | .publish _ _ => true
  | .run id _ => match s.tasks id with
    | none => true
    | some task => match task.action with
      | .load (.did identifier) _ => (s.loaded (.did identifier) task.walk).all
        (fun held => (heldLogFrom sampleSetting identifier held).toOption.isSome)
      | .store (.wcf _) _ _ _ => true
      | .store _ _ _ _ | .delete _ _ => sampleClear s
      | .load _ _ | .pure _ | .lock _ _ | .unlock _ _ | .get _ _ => true

theorem sampleClear_strands {s : State} (h : sampleClear s = true) (routing : RoutingId) :
    ¬ Strands sampleSetting s routing := by
  rw [sampleClear, Bool.and_eq_true, List.all_eq_true, List.all_eq_true] at h
  rintro ⟨subject, hlive, -⟩
  rcases hlive with hstored | hheld
  · obtain ⟨blob, hblob⟩ := List.exists_mem_of_ne_nil _ hstored
    rw [Storage.retainedAt, List.mem_filter, Bool.and_eq_true, decide_eq_true_eq] at hblob
    have hclear := h.1 blob hblob.1
    rw [hblob.2.1] at hclear
    cases hclear
  · rw [State.holder, ne_eq, Option.map_eq_none_iff, ← ne_eq, Option.ne_none_iff_exists'] at hheld
    obtain ⟨held, hfind⟩ := hheld
    have hclear := h.2 held (List.mem_of_find?_eq_some hfind)
    have hkey := List.find?_some hfind
    rw [decide_eq_true_eq] at hkey
    rw [hkey] at hclear
    cases hclear

theorem sampleCalm_steady (s : State) (event : Event) (h : sampleCalm s event = true) :
    Steady sampleSetting s event := by
  cases event with
  | publish id blobId => exact trivial
  | run id now =>
    intro task htask
    rw [sampleCalm, htask] at h
    dsimp only at h
    constructor
    · intro _ routing next haction held hheld identifier hrouting
      subst hrouting
      rw [haction] at h
      exact ⟨_, eq_okGet _ ((Option.all_eq_true _ _).mp h held hheld)⟩
    · intro routing hrouting
      unfold Action.writesAt at hrouting
      split at hrouting
      case h_1 haction =>
        cases hrouting
        rw [haction] at h
        cases routing with
        | wcf subject => 
          rintro ⟨other, -, ⟨pin, -, heq⟩ | ⟨operator, -, heq, -⟩⟩
          · cases heq
          · cases heq
        | did _ => exact sampleClear_strands h _
        | svc _ => exact sampleClear_strands h _
        | nls _ => exact sampleClear_strands h _
      case h_2 haction =>
        rw [haction] at h
        exact sampleClear_strands h _
      all_goals cases hrouting

theorem quiet_storesSelected_sample : ∃ s, Reached sampleSetting (Steady sampleSetting) s ∧
    s.Quiet ∧ s.storage.length = 4 ∧ StoresSelected sampleSetting s := by
  have hend : (driven sampleCalm samplePublishes sampleStart).any
      (fun s => (s.tasks 0).isNone && s.storage.length = 4) = true := by
    decide +kernel
  obtain ⟨s, hrun, hs⟩ := (Option.any_eq_true _ _).mp hend
  rw [Bool.and_eq_true, Option.isNone_iff_eq_none, decide_eq_true_eq] at hs
  have hreached := driven_reached sampleCalm_steady sampleStart_reached hrun
  have hquiet := driven_quiet samplePublishes_events hrun hs.1
  exact ⟨s, hreached, hquiet, hs.2, quiet_storesSelected hreached hquiet⟩

end Sample

end ScpCore.Records
