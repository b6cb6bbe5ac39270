import ScpCore.NodePublish

/-! The invariant of interleaved publishes. Every routing id is settled or owed by some
task, and every task that holds a routing id knows what it read there to be current, or
another task owes that routing id. -/

namespace ScpCore.Records
open Kel

section Store
variable {N : Setting} {storage : Storage} {routing : RoutingId}

def Storage.Distinct (storage : Storage) : Prop := (storage.map (·.blobId)).Nodup

theorem Storage.Distinct.eq (h : storage.Distinct) {a b : StoredBlob} (ha : a ∈ storage)
    (hb : b ∈ storage) (hid : a.blobId = b.blobId) : a = b :=
  List.inj_on_of_nodup_map h ha hb hid

theorem Storage.Distinct.retainedAt_nodup (h : storage.Distinct) :
    (storage.retainedAt routing).Nodup :=
  (List.Nodup.of_map _ h).filter _

theorem Storage.Distinct.queryKey_inj (h : storage.Distinct) : ∀ a ∈ storage.retainedAt routing,
    ∀ b ∈ storage.retainedAt routing, a.queryKey = b.queryKey → a = b := by
  intro a ha b hb hkey
  apply h.eq (List.mem_of_mem_filter ha) (List.mem_of_mem_filter hb)
  exact BitVec.eq_of_toNat_eq (Prod.mk.inj (toLex_inj.mp hkey)).2

theorem Storage.Distinct.admissionKey_inj (h : storage.Distinct) :
    ∀ a ∈ storage.retainedAt routing, ∀ b ∈ storage.retainedAt routing,
      a.admissionKey = b.admissionKey → a = b := by
  intro a ha b hb hkey
  apply h.eq (List.mem_of_mem_filter ha) (List.mem_of_mem_filter hb)
  exact BitVec.eq_of_toNat_eq (Prod.mk.inj (toLex_inj.mp hkey)).2

theorem loadRetained_eq (h : storage.Distinct) :
    loadRetained storage routing = keyOrder (·.admissionKey) (storage.retainedAt routing) := by
  symm
  apply keyOrder_unique h.admissionKey_inj
  · exact (keyOrder_perm _).trans (keyOrder_perm _)
  · exact keyOrder_pairwise _

@[simp] theorem mem_loadRetained {blob : StoredBlob} :
    blob ∈ loadRetained storage routing ↔ blob ∈ storage.retainedAt routing := by
  simp [loadRetained, inAdmissionOrder]

/-- Every retained blob belongs where it lies. -/
def Storage.Sound (N : Setting) (storage : Storage) : Prop :=
  ∀ blob ∈ storage, blob.lifetime.isRetained = true → Belongs N blob.routingId blob

theorem Storage.Sound.view (h : storage.Sound N) : View.Sound N (loadRetained storage) := by
  intro r blob hblob
  rw [mem_loadRetained, Storage.retainedAt, List.mem_filter, Bool.and_eq_true,
    decide_eq_true_eq] at hblob
  obtain ⟨hmem, rfl, hretained⟩ := hblob
  exact h blob hmem hretained

theorem Storage.Distinct.delete (h : storage.Distinct) (blobId : BlobId) :
    (storage.delete blobId).Distinct :=
  h.sublist (List.filter_sublist.map _)

theorem Storage.Sound.delete (h : storage.Sound N) (blobId : BlobId) :
    (storage.delete blobId).Sound N :=
  fun blob hblob => h blob (List.mem_of_mem_filter hblob)

theorem retainedAt_delete (blobId : BlobId) : (storage.delete blobId).retainedAt routing =
    (storage.retainedAt routing).filter (fun blob => blob.blobId ≠ blobId) := by
  rw [Storage.retainedAt, Storage.delete, Storage.retainedAt, List.filter_filter, List.filter_filter]
  apply List.filter_congr
  intro blob _
  rw [Bool.and_comm]

/-- A blob id names records of one routing id only. -/
theorem retainedAt_delete_ne (h : storage.Sound N) {blobId : BlobId}
    (hne : routing ≠ (N.content blobId).routingId) :
    (storage.delete blobId).retainedAt routing = storage.retainedAt routing := by
  rw [retainedAt_delete]
  apply List.filter_eq_self.mpr
  intro blob hblob
  rw [decide_eq_true_eq]
  rintro rfl
  rw [Storage.retainedAt, List.mem_filter, Bool.and_eq_true, decide_eq_true_eq] at hblob
  obtain ⟨hmem, rfl, hretained⟩ := hblob
  exact hne (h blob hmem hretained).named.symm

theorem loadRetained_delete (h : storage.Distinct) (blobId : BlobId) :
    loadRetained (storage.delete blobId) routing =
      (loadRetained storage routing).filter (fun blob => blob.blobId ≠ blobId) := by
  rw [loadRetained_eq h, loadRetained_eq (h.delete blobId), retainedAt_delete,
    keyOrder_filter h.admissionKey_inj]

theorem Storage.Distinct.store (h : storage.Distinct) (blob : StoredBlob) :
    (storage.store blob).Distinct := by
  rw [Storage.Distinct, Storage.store, List.map_append, List.nodup_append]
  refine ⟨h.delete blob.blobId, List.nodup_singleton _, ?_⟩
  intro id hid other hother
  obtain ⟨b, hb, rfl⟩ := List.mem_map.mp hid
  rw [List.mem_singleton.mp hother]
  exact of_decide_eq_true (List.mem_filter.mp hb).2

theorem Storage.Sound.store (h : storage.Sound N) {blob : StoredBlob}
    (hblob : Belongs N blob.routingId blob) : (storage.store blob).Sound N := by
  intro b hb hretained
  rcases List.mem_append.mp hb with hb | hb
  · exact h.delete blob.blobId b hb hretained
  · rw [List.mem_singleton.mp hb]
    exact hblob

theorem retainedAt_store_ne (h : storage.Sound N) {blob : StoredBlob}
    (hblob : Belongs N blob.routingId blob) (hne : routing ≠ blob.routingId) :
    (storage.store blob).retainedAt routing = storage.retainedAt routing := by
  have hold : (storage.delete blob.blobId).retainedAt routing = storage.retainedAt routing :=
    retainedAt_delete_ne h (by rw [hblob.named]; exact hne)
  rw [← hold, Storage.retainedAt, Storage.store, List.filter_append, ← Storage.retainedAt,
    List.filter_eq_nil_iff.mpr (by simp [Ne.symm hne]), List.append_nil]

theorem loadRetained_store (h : storage.Distinct) {blob : StoredBlob} {admission : ℕ}
    (hlifetime : blob.lifetime = .retained admission)
    (hnew : ∀ b ∈ loadRetained storage blob.routingId, b.blobId ≠ blob.blobId)
    (hlast : ∀ b ∈ loadRetained storage blob.routingId, ∀ a ∈ b.lifetime.admission, a < admission) :
    loadRetained (storage.store blob) blob.routingId =
      loadRetained storage blob.routingId ++ [blob] := by
  have hold : (storage.delete blob.blobId).retainedAt blob.routingId =
      storage.retainedAt blob.routingId := by
    rw [retainedAt_delete]
    apply List.filter_eq_self.mpr
    intro b hb
    exact decide_eq_true (hnew b (mem_loadRetained.mpr hb))
  have hstore : (storage.store blob).retainedAt blob.routingId =
      storage.retainedAt blob.routingId ++ [blob] := by
    rw [Storage.retainedAt, Storage.store, List.filter_append, ← Storage.retainedAt, hold,
      List.filter_eq_self.mpr]
    intro b hb
    rw [List.mem_singleton.mp hb]
    simp [hlifetime, Node.StoredLifetime.isRetained, Node.StoredLifetime.admission]
  rw [loadRetained_eq h, loadRetained_eq (h.store blob), hstore,
    keyOrder_concat h.admissionKey_inj]
  intro b hb
  have hretained : b.lifetime.isRetained = true := by
    rw [Storage.retainedAt, List.mem_filter, Bool.and_eq_true] at hb
    exact hb.2.2
  obtain ⟨a, ha⟩ := Option.isSome_iff_exists.mp hretained
  -- The counters differ, so the keys compare by them.
  rw [StoredBlob.admissionKey, StoredBlob.admissionKey, ha, hlifetime, Prod.Lex.toLex_lt_toLex]
  exact .inl (hlast b (mem_loadRetained.mpr hb) a ha)

end Store

/-- A whole load, or the pages of the load under way. -/
inductive Seen
  | whole (routing : RoutingId) (held : List StoredBlob)
  | part (routing : RoutingId) (walk : PagedWalk StoredBlob (ℕ ×ₗ ℕ))

namespace Seen

def routing : Seen → RoutingId
  | .whole routing _ => routing
  | .part routing _ => routing

/-- What was seen is what the store holds. -/
def Holds (storage : Storage) : Seen → Prop
  | .whole routing held => loadRetained storage routing = held
  | .part routing walk => walk.Of (·.queryKey) (storage.retainedAt routing)

theorem Holds.congr {storage storage' : Storage} {seen : Seen} (h : seen.Holds storage)
    (hsame : storage'.retainedAt seen.routing = storage.retainedAt seen.routing) :
    seen.Holds storage' := by
  cases seen with
  | whole routing held =>
    rw [Holds, loadRetained, show storage'.retainedAt routing = _ from hsame]
    exact h
  | part routing walk =>
    rw [Holds, show storage'.retainedAt routing = _ from hsame]
    exact h

end Seen

/-- The load under way. -/
def Task.walking (task : Task) : List Seen :=
  match task.action with
  | .load routing _ => [.part routing task.walk]
  | .pure _ | .lock _ _ | .unlock _ _ | .get _ _ | .store _ _ _ _ | .delete _ _ => []

def seenBy (g : Ledger) (task : Task) : List Seen :=
  g.reads.map (fun read => .whole read.1 read.2) ++ task.walking

/-- A load that has not begun has seen nothing. -/
theorem walking_start {action : Action Outcome} {storage : Storage} :
    ∀ seen ∈ (Task.mk action .start).walking, seen.Holds storage := by
  intro seen hseen
  unfold Task.walking at hseen
  split at hseen
  · rw [List.mem_singleton.mp hseen]
    exact PagedWalk.start_of
  all_goals cases hseen

/-- Another task owes the routing id. -/
def OwedBesides (ledgers : TaskId → Ledger) (task : TaskId) (routing : RoutingId) : Prop :=
  ∃ other, other ≠ task ∧ routing ∈ (ledgers other).owed

section Invariant
variable (N : Setting)

/-- What holds of one task: its program is safe, it reads only inputs, and what it has seen is
current where it holds the lock, and current altogether unless another task owes the routing
id it selects at. -/
structure Knows (storage : Storage) (ledgers : TaskId → Ledger) (id : TaskId) (task : Task) :
    Prop where
  safe : task.action.Safe N (ledgers id) Ends
  inputs : ∀ read ∈ (ledgers id).reads, ∃ top rest, (ledgers id).stack = top :: rest ∧
    (read.1 = top ∨ Others N top (ledgers id).reads read.1)
  belongs : ∀ routing next, task.action = .load routing next →
    ∀ blob ∈ task.walk.held, Belongs N routing blob
  own : ∀ seen ∈ seenBy (ledgers id) task, seen.routing ∈ (ledgers id).stack → seen.Holds storage
  fresh : ∀ top rest, (ledgers id).stack = top :: rest →
    (∀ seen ∈ seenBy (ledgers id) task, seen.Holds storage) ∨ OwedBesides ledgers id top

structure Inv (s : State) (ledgers : TaskId → Ledger) : Prop where
  sound : s.storage.Sound N
  distinct : s.storage.Distinct
  locks : ∀ id routing, routing ∈ (ledgers id).stack ↔ s.holder (.retained routing) = some id
  nodup : ∀ id, (ledgers id).stack.Nodup
  idle : ∀ id, s.tasks id = none → ledgers id = ⟨[], [], ∅⟩
  knows : ∀ id task, s.tasks id = some task → Knows N s.storage ledgers id task
  settled : ∀ routing, Settled N (loadRetained s.storage) routing ∨
    ∃ id, routing ∈ (ledgers id).owed

/-- A conflict frame is stored or being written whose selection reads records at `routing`,
and no write at `routing` selects it again. -/
def Strands (s : State) (routing : RoutingId) : Prop :=
  ∃ subject, (s.storage.retainedAt (.wcf subject) ≠ [] ∨
      s.holder (.retained (.wcf subject)) ≠ none) ∧
    ((∃ pin ∈ N.nodeLists, routing = .nls pin.contextId) ∨
      ∃ operator, operator ≠ subject ∧ routing = .did operator ∧
        ∃ pin ∈ N.nodeLists, Names N (s.storage.retainedAt (.nls pin.contextId)) operator)

/-- Where the operation writes. -/
def Action.writesAt {α : Type} : Action α → Option RoutingId
  | .store routing _ _ _ => some routing
  | .delete blobId _ => some (N.content blobId).routingId
  | .pure _ | .lock _ _ | .unlock _ _ | .load _ _ | .get _ _ => none

/-- The task holds two locks: it selects again what depends on its write. -/
def State.Reselects (s : State) (id : TaskId) : Prop :=
  ∃ routing other, routing ≠ other ∧ s.holder (.retained routing) = some id ∧
    s.holder (.retained other) = some id

/-- The records a load ends with, if the page it reads next is its last. -/
def State.loaded (s : State) (routing : RoutingId) (walk : PagedWalk StoredBlob (ℕ ×ₗ ℕ)) :
    Option (List StoredBlob) :=
  let read := walk.advance (·.queryKey) loadPageLen (s.storage.retainedAt routing)
  if read.2 then some (inAdmissionOrder read.1.held) else none

/-- The key-event records a reselection loads replay, and no write changes what a conflict
frame stored or being written was selected by without selecting it again. -/
def Steady (s : State) : Event → Prop
  | .publish _ _ => True
  | .run id _ => ∀ task, s.tasks id = some task →
    (s.Reselects id → ∀ routing next, task.action = .load routing next →
      ∀ held ∈ s.loaded routing task.walk, Replays N routing held) ∧
    ∀ routing ∈ task.action.writesAt N, ¬ Strands N s routing

end Invariant

section Steps
variable {N : Setting} {s : State} {ledgers : TaskId → Ledger} {id : TaskId} {task : Task}

theorem holder_take (key other : LockKey) : (s.take key id).holder other =
    if other = key then some id else s.holder other := by
  rw [State.holder, State.take, List.find?_cons]
  by_cases h : key = other
  · simp [h]
  · simp [h, Ne.symm h, State.holder]

theorem holder_release (key other : LockKey) : (s.release key).holder other =
    if other = key then none else s.holder other := by
  rw [State.holder, State.release, List.find?_filter]
  split_ifs with h
  · rw [Option.map_eq_none_iff, List.find?_eq_none]
    intro held _
    simp [h]
  · rw [State.holder]
    congr 2
    funext held
    by_cases hheld : held.1 = other
    · simp [hheld, h]
    · simp [hheld]

/-- A task keeps what it knows while the store stays and the routing id it selects at is owed
as before. -/
theorem Knows.keep {storage : Storage} {ledgers' : TaskId → Ledger}
    (h : Knows N storage ledgers id task) (hself : ledgers' id = ledgers id)
    (howed : ∀ top rest, (ledgers id).stack = top :: rest → OwedBesides ledgers id top →
      OwedBesides ledgers' id top) : Knows N storage ledgers' id task := by
  refine ⟨?_, ?_, h.belongs, ?_, ?_⟩
  · rw [hself]
    exact h.safe
  · rw [hself]
    exact h.inputs
  · rw [hself]
    exact h.own
  · rw [hself]
    exact fun top rest hstack => (h.fresh top rest hstack).imp_right (howed top rest hstack)

theorem Inv.free (h : Inv N s ledgers) {other : TaskId} {routing : RoutingId}
    (hid : routing ∈ (ledgers id).stack) (hother : routing ∈ (ledgers other).stack) : id = other := by
  rw [h.locks] at hid hother
  rw [hid] at hother
  exact Option.some.inj hother

/-- The task moves on, and strikes of what it owes only what it holds and leaves settled or
owed by another. -/
theorem Inv.advance (h : Inv N s ledgers) {g : Ledger} {next : Option Task}
    {locks : List (LockKey × TaskId)}
    (hlocks : ∀ other routing, routing ∈ (Function.update ledgers id g other).stack ↔
      (State.mk s.storage locks s.tasks).holder (.retained routing) = some other)
    (hnodup : g.stack.Nodup)
    (howed : ∀ routing ∈ (ledgers id).owed, routing ∈ g.owed ∨ routing ∈ (ledgers id).stack ∧
      (Settled N (loadRetained s.storage) routing ∨ OwedBesides ledgers id routing))
    (hidle : next = none → g = ⟨[], [], ∅⟩)
    (hknows : ∀ task, next = some task →
      Knows N s.storage (Function.update ledgers id g) id task) :
    Inv N ⟨s.storage, locks, Function.update s.tasks id next⟩ (Function.update ledgers id g) := by
  have hbesides {routing : RoutingId} (hr : OwedBesides ledgers id routing) :
      ∃ other, routing ∈ (Function.update ledgers id g other).owed := by
    obtain ⟨other, hother, hr⟩ := hr
    exact ⟨other, by rw [Function.update_of_ne hother]; exact hr⟩
  refine ⟨h.sound, h.distinct, hlocks, ?_, ?_, ?_, ?_⟩
  · intro other
    by_cases hother : other = id
    · rw [hother, Function.update_self]
      exact hnodup
    · rw [Function.update_of_ne hother]
      exact h.nodup other
  · intro other hnone
    dsimp only at hnone
    by_cases hother : other = id
    · subst hother
      rw [Function.update_self] at hnone ⊢
      exact hidle hnone
    · rw [Function.update_of_ne hother] at hnone ⊢
      exact h.idle other hnone
  · intro other task htask
    dsimp only at htask
    by_cases hother : other = id
    · subst hother
      rw [Function.update_self] at htask
      exact hknows task htask
    · rw [Function.update_of_ne hother] at htask
      apply (h.knows other task htask).keep (Function.update_of_ne hother _ _)
      intro top rest hstack hbesides'
      obtain ⟨witness, hwitness, htop⟩ := hbesides'
      by_cases hself : witness = id
      · subst hself
        rcases howed top htop with htop | ⟨hheld, -⟩
        · exact ⟨witness, hwitness, by rw [Function.update_self]; exact htop⟩
        · -- Only one task holds the lock.
          exact absurd (h.free hheld (by rw [hstack]; exact List.mem_cons_self)) hwitness
      · exact ⟨witness, hwitness, by rw [Function.update_of_ne hself]; exact htop⟩
  · intro routing
    rcases h.settled routing with hsettled | ⟨other, hr⟩
    · exact .inl hsettled
    · by_cases hother : other = id
      · subst hother
        rcases howed routing hr with hr | ⟨-, hsettled | hr⟩
        · exact .inr ⟨other, by rw [Function.update_self]; exact hr⟩
        · exact .inl hsettled
        · exact .inr (hbesides hr)
      · exact .inr ⟨other, by rw [Function.update_of_ne hother]; exact hr⟩

theorem mem_seenBy {g : Ledger} {seen : Seen} : seen ∈ seenBy g task ↔
    (∃ read ∈ g.reads, .whole read.1 read.2 = seen) ∨ seen ∈ task.walking := by
  rw [seenBy, List.mem_append, List.mem_map]

/-- A task that has read nothing yet knows all it has seen. -/
theorem Knows.afresh {storage : Storage} {action : Action Outcome} (hreads : (ledgers id).reads = [])
    (hsafe : action.Safe N (ledgers id) Ends) : Knows N storage ledgers id ⟨action, .start⟩ := by
  have hall : ∀ seen ∈ seenBy (ledgers id) ⟨action, .start⟩, seen.Holds storage := by
    intro seen hseen
    rw [seenBy, hreads, List.map_nil, List.nil_append] at hseen
    exact walking_start seen hseen
  refine ⟨hsafe, ?_, ?_, fun seen hseen _ => hall seen hseen, fun _ _ _ => .inl hall⟩
  · intro read hread
    rw [hreads] at hread
    cases hread
  · intro routing next _ blob hblob
    cases hblob

/-- An operation that changes neither the store nor the ledger. -/
theorem Knows.pass {storage : Storage} {action : Action Outcome}
    (h : Knows N storage ledgers id task) (hsafe : action.Safe N (ledgers id) Ends) :
    Knows N storage ledgers id ⟨action, .start⟩ := by
  have hseen {seen : Seen} (hmem : seen ∈ seenBy (ledgers id) ⟨action, .start⟩) :
      seen ∈ seenBy (ledgers id) task ∨ seen.Holds storage := by
    rcases mem_seenBy.mp hmem with hread | hwalking
    · exact .inl (mem_seenBy.mpr (.inl hread))
    · exact .inr (walking_start seen hwalking)
  refine ⟨hsafe, h.inputs, ?_, ?_, ?_⟩
  · intro routing next _ blob hblob
    cases hblob
  · intro seen hmem hheld
    rcases hseen hmem with hold | hholds
    · exact h.own seen hold hheld
    · exact hholds
  · intro top rest hstack
    refine (h.fresh top rest hstack).imp_left (fun hall seen hmem => ?_)
    rcases hseen hmem with hold | hholds
    · exact hall seen hold
    · exact hholds

theorem Inv.pass (h : Inv N s ledgers) (htask : s.tasks id = some task) {action : Action Outcome}
    {locks : List (LockKey × TaskId)}
    (hlocks : ∀ routing, (State.mk s.storage locks s.tasks).holder (.retained routing) =
      s.holder (.retained routing))
    (hsafe : action.Safe N (ledgers id) Ends) :
    Inv N ⟨s.storage, locks, Function.update s.tasks id (some ⟨action, .start⟩)⟩ ledgers := by
  have hsame : Function.update ledgers id (ledgers id) = ledgers := Function.update_eq_self id ledgers
  rw [← hsame]
  apply h.advance
  · intro other routing
    rw [hsame, h.locks, hlocks]
  · exact h.nodup id
  · exact fun routing hr => .inl hr
  · exact fun hnone => nomatch hnone
  · intro next hnext
    cases hnext
    rw [hsame]
    exact (h.knows id task htask).pass hsafe

theorem Inv.publish (h : Inv N s ledgers) (htask : s.tasks id = none) (blobId : BlobId) :
    Inv N (s.continue_ id (admit_ N blobId)) ledgers := by
  have hidle := h.idle id htask
  have hsame : Function.update ledgers id (ledgers id) = ledgers := Function.update_eq_self id ledgers
  rw [← hsame]
  apply h.advance
  · intro other routing
    rw [hsame, h.locks]
  · exact h.nodup id
  · exact fun routing hr => .inl hr
  · exact fun hnone => nomatch hnone
  · intro next hnext
    cases hnext
    rw [hsame]
    apply Knows.afresh
    · rw [hidle]
    · rw [hidle]
      exact safe_admit blobId

/-- A task that ends leaves nothing owed. -/
theorem Inv.finish (h : Inv N s ledgers) {outcome : Outcome} (htask : s.tasks id = some task)
    (haction : task.action = .pure outcome) :
    Inv N ⟨s.storage, s.locks, Function.update s.tasks id none⟩
      (Function.update ledgers id ⟨[], [], ∅⟩) := by
  have hsafe := (h.knows id task htask).safe
  rw [haction] at hsafe
  obtain ⟨hstack, howed⟩ := hsafe
  apply h.advance
  · intro other routing
    change _ ↔ s.holder (.retained routing) = some other
    rw [← h.locks]
    by_cases hother : other = id
    · rw [hother, Function.update_self, hstack]
    · rw [Function.update_of_ne hother]
  · exact List.nodup_nil
  · intro routing hr
    rw [howed] at hr
    cases hr
  · exact fun _ => rfl
  · exact fun _ hnext => nomatch hnext

theorem Inv.lock (h : Inv N s ledgers) {key : LockKey} {next : Action Outcome}
    (htask : s.tasks id = some task) (haction : task.action = .lock key next)
    (hfree : s.holder key = none) :
    ∃ ledgers', Inv N ((s.take key id).continue_ id next) ledgers' := by
  have hsafe := (h.knows id task htask).safe
  rw [haction] at hsafe
  cases key with
  | blob blobId =>
    refine ⟨ledgers, h.pass htask ?_ hsafe⟩
    intro routing
    exact (holder_take _ _).trans (if_neg (by simp))
  | retained routing =>
    have hnew : routing ∉ (ledgers id).stack := by
      rw [h.locks, hfree]
      simp
    refine ⟨_, h.advance (g := (ledgers id).take routing) ?_ ?_ ?_ ?_ ?_⟩
    · intro other r
      change _ ↔ (s.take (.retained routing) id).holder (.retained r) = some other
      rw [holder_take]
      simp only [LockKey.retained.injEq]
      by_cases hr : r = routing
      · rw [if_pos hr, hr, Option.some.injEq]
        by_cases hother : other = id
        · simp [hother, Ledger.take]
        · rw [Function.update_of_ne hother, h.locks, hfree]
          simp [Ne.symm hother]
      · rw [if_neg hr, ← h.locks]
        by_cases hother : other = id
        · simp [hother, Ledger.take, hr]
        · rw [Function.update_of_ne hother]
    · exact List.nodup_cons.mpr ⟨hnew, h.nodup id⟩
    · exact fun r hr => .inl hr
    · exact fun hnone => nomatch hnone
    · intro task' htask'
      cases htask'
      apply Knows.afresh
      · rw [Function.update_self]
        rfl
      · rw [Function.update_self]
        exact hsafe

theorem Inv.unlock (h : Inv N s ledgers) {key : LockKey} {next : Action Outcome}
    (htask : s.tasks id = some task) (haction : task.action = .unlock key next) :
    ∃ ledgers', Inv N ((s.release key).continue_ id next) ledgers' := by
  have hknows := h.knows id task htask
  have hsafe := hknows.safe
  rw [haction] at hsafe
  cases key with
  | blob blobId =>
    refine ⟨ledgers, h.pass htask ?_ hsafe⟩
    intro routing
    exact (holder_release _ _).trans (if_neg (by simp))
  | retained routing =>
    obtain ⟨rest, hstack, hsafe⟩ := hsafe
    have hrest : routing ∉ rest := by
      have hnodup := h.nodup id
      rw [hstack] at hnodup
      exact (List.nodup_cons.mp hnodup).1
    have hheld : routing ∈ (ledgers id).stack := by
      rw [hstack]
      exact List.mem_cons_self
    have hlocks (owed : Set RoutingId) (other : TaskId) (r : RoutingId) :
        r ∈ (Function.update ledgers id ⟨rest, [], owed⟩ other).stack ↔
          (s.release (.retained routing)).holder (.retained r) = some other := by
      rw [holder_release]
      simp only [LockKey.retained.injEq]
      by_cases hr : r = routing
      · rw [if_pos hr, hr]
        by_cases hother : other = id
        · simp [hother, hrest]
        · rw [Function.update_of_ne hother]
          simp only [reduceCtorEq, iff_false]
          exact fun hmem => hother (h.free hmem hheld)
      · rw [if_neg hr, ← h.locks]
        by_cases hother : other = id
        · simp [hother, hstack, hr]
        · rw [Function.update_of_ne hother]
    have hnodup : rest.Nodup := by
      have hnodup := h.nodup id
      rw [hstack] at hnodup
      exact (List.nodup_cons.mp hnodup).2
    have hknows' (owed : Set RoutingId) (hsafe : next.Safe N ⟨rest, [], owed⟩ Ends) (task' : Task)
        (htask' : some (Task.mk next .start) = some task') :
        Knows N s.storage (Function.update ledgers id ⟨rest, [], owed⟩) id task' := by
      cases htask'
      apply Knows.afresh
      · rw [Function.update_self]
      · rw [Function.update_self]
        exact hsafe
    rcases hsafe with hsafe | ⟨hpays, hsafe⟩
    · exact ⟨_, h.advance (hlocks _) hnodup (fun r hr => .inl hr) (fun hnone => nomatch hnone)
        (hknows' _ hsafe)⟩
    · refine ⟨_, h.advance (hlocks _) hnodup ?_ (fun hnone => nomatch hnone) (hknows' _ hsafe)⟩
      intro r hr
      by_cases heq : r = routing
      · -- What the task read is current, unless another task owes the routing id.
        subst heq
        refine .inr ⟨hheld, ?_⟩
        rcases hknows.fresh r rest hstack with hall | hbesides
        · refine .inl (hpays _ h.sound.view ?_)
          intro read hread
          exact hall _ (mem_seenBy.mpr (.inl ⟨read, hread, rfl⟩))
        · exact .inr hbesides
      · exact .inl ⟨hr, heq⟩

theorem Inv.get (h : Inv N s ledgers) {blobId : BlobId} {next : Option StoredBlob → Action Outcome}
    (htask : s.tasks id = some task) (haction : task.action = .get blobId next) :
    Inv N (s.continue_ id (next (s.storage.get blobId))) ledgers := by
  have hsafe := (h.knows id task htask).safe
  rw [haction] at hsafe
  exact h.pass htask (fun _ => rfl) (hsafe _)

theorem loadPageLen_pos : 0 < loadPageLen := by decide

/-- A page brings records that belong. -/
theorem advance_belongs {routing : RoutingId} {walk : PagedWalk StoredBlob (ℕ ×ₗ ℕ)}
    (hsound : s.storage.Sound N) (hwalk : ∀ blob ∈ walk.held, Belongs N routing blob) :
    ∀ blob ∈ (walk.advance (·.queryKey) loadPageLen (s.storage.retainedAt routing)).1.held,
      Belongs N routing blob := by
  intro blob hblob
  unfold PagedWalk.advance at hblob
  dsimp only at hblob
  split at hblob
  · exact hwalk blob hblob
  · rcases List.mem_append.mp hblob with hblob | hblob
    · exact hwalk blob hblob
    · have hmem := mem_keyOrder.mp (List.mem_of_mem_take hblob)
      exact hsound.view routing blob (mem_loadRetained.mpr (List.mem_of_mem_filter hmem))

theorem OwedBesides.update {routing : RoutingId} (h : OwedBesides ledgers id routing) (g : Ledger) :
    OwedBesides (Function.update ledgers id g) id routing := by
  obtain ⟨other, hother, hr⟩ := h
  exact ⟨other, hother, by rw [Function.update_of_ne hother]; exact hr⟩

/-- A task at the end of a load has seen its records whole. -/
theorem Knows.saw {storage : Storage} {routing top : RoutingId} {rest : List RoutingId}
    {held : List StoredBlob} {next : List StoredBlob → Action Outcome}
    (h : Knows N storage ledgers id task) (haction : task.action = .load routing next)
    (hstack : (ledgers id).stack = top :: rest) (hinput : Inputs N top (ledgers id).reads routing)
    (hsafe : (next held).Safe N ((ledgers id).saw routing held) Ends)
    (hwhole : (Seen.part routing task.walk).Holds storage → loadRetained storage routing = held) :
    Knows N storage (Function.update ledgers id ((ledgers id).saw routing held)) id
      ⟨next held, .start⟩ := by
  have hpart : .part routing task.walk ∈ seenBy (ledgers id) task := by
    refine mem_seenBy.mpr (.inr ?_)
    rw [Task.walking, haction]
    exact List.mem_singleton.mpr rfl
  have hseen {seen : Seen}
      (hmem : seen ∈ seenBy ((ledgers id).saw routing held) ⟨next held, .start⟩) :
      seen = .whole routing held ∨ seen ∈ seenBy (ledgers id) task ∨ seen.Holds storage := by
    rcases mem_seenBy.mp hmem with ⟨read, hread, rfl⟩ | hwalking
    · rcases List.mem_cons.mp hread with rfl | hread
      · exact .inl rfl
      · exact .inr (.inl (mem_seenBy.mpr (.inl ⟨read, hread, rfl⟩)))
    · exact .inr (.inr (walking_start seen hwalking))
  constructor
  case safe =>
    rw [Function.update_self]
    exact hsafe
  case inputs =>
    rw [Function.update_self]
    intro read hread
    refine ⟨top, rest, hstack, ?_⟩
    have hsub : (ledgers id).reads ⊆ ((ledgers id).saw routing held).reads :=
      List.subset_cons_self _ _
    rcases List.mem_cons.mp hread with rfl | hread
    · exact hinput.imp And.left (fun hother => hother.mono hsub)
    · obtain ⟨top', rest', hstack', hold⟩ := h.inputs read hread
      obtain ⟨rfl, -⟩ := List.cons.inj (hstack.symm.trans hstack')
      exact hold.imp_right (fun hother => hother.mono hsub)
  case belongs =>
    intro _ _ _ blob hblob
    cases hblob
  case own =>
    rw [Function.update_self]
    intro seen hmem hheld
    rcases hseen hmem with rfl | hold | hholds
    · exact hwhole (h.own _ hpart hheld)
    · exact h.own seen hold hheld
    · exact hholds
  case fresh =>
    rw [Function.update_self]
    intro top' rest' hstack'
    rcases h.fresh top' rest' hstack' with hall | hbesides
    · refine .inl (fun seen hmem => ?_)
      rcases hseen hmem with rfl | hold | hholds
      · exact hwhole (hall _ hpart)
      · exact hall seen hold
      · exact hholds
    · exact .inr (hbesides.update _)

/-- A task in the middle of a load has seen one more page. -/
theorem Knows.walked {storage : Storage} {routing : RoutingId}
    {walk : PagedWalk StoredBlob (ℕ ×ₗ ℕ)} {next : List StoredBlob → Action Outcome}
    (h : Knows N storage ledgers id task) (haction : task.action = .load routing next)
    (hbelongs : ∀ blob ∈ walk.held, Belongs N routing blob)
    (hpart : (Seen.part routing task.walk).Holds storage → (Seen.part routing walk).Holds storage) :
    Knows N storage ledgers id ⟨.load routing next, walk⟩ := by
  have hold : .part routing task.walk ∈ seenBy (ledgers id) task := by
    refine mem_seenBy.mpr (.inr ?_)
    rw [Task.walking, haction]
    exact List.mem_singleton.mpr rfl
  have hseen {seen : Seen} (hmem : seen ∈ seenBy (ledgers id) ⟨.load routing next, walk⟩) :
      seen = .part routing walk ∨ seen ∈ seenBy (ledgers id) task := by
    rcases mem_seenBy.mp hmem with hread | hwalking
    · exact .inr (mem_seenBy.mpr (.inl hread))
    · exact .inl (List.mem_singleton.mp hwalking)
  constructor
  case safe =>
    have hsafe := h.safe
    rw [haction] at hsafe
    exact hsafe
  case inputs => exact h.inputs
  case belongs =>
    intro routing' next' heq
    cases heq
    exact hbelongs
  case own =>
    intro seen hmem hheld
    rcases hseen hmem with rfl | hmem
    · exact hpart (h.own _ hold hheld)
    · exact h.own seen hmem hheld
  case fresh =>
    intro top rest hstack
    refine (h.fresh top rest hstack).imp_left (fun hall seen hmem => ?_)
    rcases hseen hmem with rfl | hmem
    · exact hpart (hall _ hold)
    · exact hall seen hmem

/-- A task with two locks of its stack holds two locks. -/
theorem Inv.reselects (h : Inv N s ledgers) {routing : RoutingId} {rest : List RoutingId}
    (hstack : (ledgers id).stack = routing :: rest) (hrest : rest ≠ []) : s.Reselects id := by
  obtain ⟨other, others, rfl⟩ := List.exists_cons_of_ne_nil hrest
  have hnodup := h.nodup id
  rw [hstack, List.nodup_cons] at hnodup
  refine ⟨routing, other, fun heq => hnodup.1 (heq ▸ List.mem_cons_self), ?_, ?_⟩
  · rw [← h.locks, hstack]
    exact List.mem_cons_self
  · rw [← h.locks, hstack]
    exact List.mem_cons_of_mem _ List.mem_cons_self

theorem Inv.query (h : Inv N s ledgers) {routing : RoutingId} {next : List StoredBlob → Action Outcome}
    (htask : s.tasks id = some task) (haction : task.action = .load routing next)
    (hreplays : s.Reselects id → ∀ held ∈ s.loaded routing task.walk, Replays N routing held) :
    ∃ ledgers', Inv N (s.query id routing task.walk next) ledgers' := by
  have hknows := h.knows id task htask
  have hsafe := hknows.safe
  rw [haction] at hsafe
  obtain ⟨top, rest, hstack, hinput, hsafe⟩ := hsafe
  have hbelongs := advance_belongs h.sound (hknows.belongs routing next haction)
  have hwalk (hof : (Seen.part routing task.walk).Holds s.storage) :=
    PagedWalk.Of.advance h.distinct.queryKey_inj h.distinct.retainedAt_nodup loadPageLen_pos hof
  unfold State.query
  dsimp only
  split_ifs with hdone
  · generalize hread : inAdmissionOrder (task.walk.advance (·.queryKey) loadPageLen
      (s.storage.retainedAt routing)).1.held = held
    have hheld : ∀ blob ∈ held, Belongs N routing blob := by
      subst hread
      exact fun blob hblob => hbelongs blob (mem_keyOrder.mp hblob)
    have hloaded : held ∈ s.loaded routing task.walk := by
      rw [State.loaded, if_pos hdone, hread]
      rfl
    have hnested : rest ≠ [] → Replays N routing held :=
      fun hrest => hreplays (h.reselects hstack hrest) held hloaded
    refine ⟨_, h.advance (g := (ledgers id).saw routing held) ?_ (h.nodup id)
      (fun r hr => .inl hr) (fun hnone => nomatch hnone) ?_⟩
    · intro other r
      change _ ↔ s.holder (.retained r) = some other
      rw [← h.locks]
      by_cases hother : other = id
      · rw [hother, Function.update_self]
        rfl
      · rw [Function.update_of_ne hother]
    · intro task' htask'
      cases htask'
      apply hknows.saw haction hstack hinput (hsafe held hheld hnested)
      intro hof
      rw [← hread, (hwalk hof).2 hdone]
      rfl
  · have hsame : Function.update ledgers id (ledgers id) = ledgers :=
      Function.update_eq_self id ledgers
    refine ⟨ledgers, ?_⟩
    rw [← hsame]
    apply h.advance
    · intro other r
      rw [hsame, h.locks]
    · exact h.nodup id
    · exact fun r hr => .inl hr
    · exact fun hnone => nomatch hnone
    · intro task' htask'
      cases htask'
      rw [hsame]
      exact hknows.walked haction hbelongs (fun hof => (hwalk hof).1)

end Steps

end ScpCore.Records
