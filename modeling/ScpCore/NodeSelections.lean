import ScpCore.NodeObligations

/-! The selections on a store that does not change. Each is a function of the records at
its routing id and of the logs and node lists of the view. Run again over what it keeps it
keeps all of it, and an admission selects as if the arriving record were stored already. -/

namespace ScpCore.Records
open Kel

section Read
variable {α β : Type} {view : View}

theorem Action.read_bind (a : Action α) (f : α → Action β) :
    (a.bind f).read view = (a.read view).bind (fun x => (f x).read view) := by
  induction a with
  | pure x => rfl
  | load routing next ih => exact ih (view routing)
  | lock _ _ _ => rfl
  | unlock _ _ _ => rfl
  | get _ _ _ => rfl
  | store _ _ _ _ _ => rfl
  | delete _ _ _ => rfl

/-- A fallible program on the view runs its parts in turn, as the results do. -/
theorem read_bind_eq {x : Fallible α} {f : α → Fallible β} {result : Except Refusal α}
    {next : α → Except Refusal β} (hx : x.run.read view = some result)
    (hf : ∀ a, result = .ok a → (f a).run.read view = some (next a)) :
    (x >>= f).run.read view = some (result >>= next) := by
  change (Action.bind x.run (ExceptT.bindCont f)).read view = _
  rw [Action.read_bind, hx, Option.bind_some]
  cases result with
  | ok a => exact hf a rfl
  | error e => rfl

theorem read_bind_ok {x : Fallible α} {f : α → Fallible β} {a : α}
    (hx : x.run.read view = some (.ok a)) : (x >>= f).run.read view = (f a).run.read view := by
  change (Action.bind x.run (ExceptT.bindCont f)).read view = _
  rw [Action.read_bind, hx]
  rfl

theorem read_bind_error {x : Fallible α} {f : α → Fallible β} {refusal : Refusal}
    (hx : x.run.read view = some (.error refusal)) :
    (x >>= f).run.read view = some (.error refusal) := by
  change (Action.bind x.run (ExceptT.bindCont f)).read view = _
  rw [Action.read_bind, hx]
  rfl

@[simp] theorem read_pure (a : α) : (pure a : Fallible α).run.read view = some (.ok a) := rfl

@[simp] theorem read_liftExcept (result : Except Refusal α) :
    (liftExcept result).run.read view = some result := rfl

@[simp] theorem read_load (routing : RoutingId) :
    (load routing).run.read view = some (.ok (view routing)) := rfl

end Read

theorem map_bind_except {ε α β γ : Type} (x : Except ε α) (f : α → Except ε β) (g : β → γ) :
    (x >>= f).map g = x >>= (fun a => (f a).map g) := by
  cases x <;> rfl

section Selections
variable (N : Setting) (view : View)

/-- The log the view holds of an identifier. -/
def logOn (identifier : Identifier) : Except Refusal Node.HeldLog :=
  heldLogFrom N identifier (view (.did identifier))

/-- A stored node list with the key its signature verifies under. -/
def resolveOn (blob : StoredBlob) : Except Refusal HeldNodeList := do
  let record ← decodeNodeList N blob
  let log ← logOn N view record.governor
  pure ⟨blob.blobId, record, (verifyNodeList N log.retained record).toOption⟩

def pinnedOn : List NodeListPin → Except Refusal (List NodeListRecord)
  | [] => pure []
  | pin :: rest => do
    let records ← (view (.nls pin.contextId)).mapM (decodeNodeList N)
    let later ← pinnedOn rest
    pure (records.filter (fun record => record.governor = pin.governor) ++ later)

def boundOn : Bound → List NodeListEntry → Except Refusal Bound
  | bound, [] => pure bound
  | bound, entry :: rest => do
    let log ← logOn N view entry.binding.operator
    boundOn (bindEntry N log.retained entry bound) rest

/-- The bound witnesses of the pinned node lists. -/
def witnessesOn : Except Refusal Bound := do
  let lists ← pinnedOn N view N.nodeLists
  boundOn N view [] (lists.flatMap (·.entries))

/-- What the selection at a routing id keeps of `held`. -/
def keptOn (routing : RoutingId) (held : List StoredBlob) : Except Refusal (List BlobId) :=
  match routing with
  | .did _ => pure (held.map (·.blobId))
  | .svc identifier => do
    let log ← logOn N view identifier
    let records ← decodeServiceRecords N held
    pure (selectServiceRecords N records (designatedServiceKeys log.retained))
  | .nls _ => do
    let records ← held.mapM (resolveOn N view)
    pure (selectNodeLists records)
  | .wcf subject => do
    let bound ← witnessesOn N view
    let log ← logOn N view subject
    let frames ← decodeConflicts N held
    pure (selectConflicts N frames subject log.retained bound)

def selectOn (routing : RoutingId) (held : List StoredBlob) : Except Refusal Selection :=
  if held.isEmpty then pure ⟨held, []⟩ else (keptOn N view routing held).map (⟨held, ·⟩)

variable {N view}

theorem read_heldLog (identifier : Identifier) :
    (heldLog N identifier).run.read view = some (logOn N view identifier) := rfl

/-- The chains read so far are those of the view. -/
def ChainsRead.Of (N : Setting) (view : View) (chains : ChainsRead) : Prop :=
  ∀ identifier held, chains.get identifier = some held →
    ∃ log, logOn N view identifier = .ok log ∧ log.retained = held

theorem ChainsRead.Of.cons {chains : ChainsRead} (h : chains.Of N view) {identifier : Identifier}
    {log : Node.HeldLog} (hlog : logOn N view identifier = .ok log) :
    ChainsRead.Of N view ((identifier, log.retained) :: chains) := by
  intro other held hget
  rw [ChainsRead.get, List.find?_cons] at hget
  split at hget
  · rename_i heq
    simp only [Option.map_some, Option.some.injEq] at hget
    rw [← of_decide_eq_true heq, ← hget]
    exact ⟨log, hlog, rfl⟩
  · exact h other held hget

theorem read_chainsOf_error {chains : ChainsRead} (h : chains.Of N view) {identifier : Identifier}
    {refusal : Refusal} (hlog : logOn N view identifier = .error refusal) :
    (chainsOf N chains identifier).run.read view = some (.error refusal) := by
  unfold chainsOf
  cases hget : chains.get identifier with
  | some held =>
    obtain ⟨log, hheld, -⟩ := h identifier held hget
    rw [hheld] at hlog
    cases hlog
  | none =>
    dsimp only
    rw [read_bind_eq (read_heldLog identifier) (fun log _ => read_pure _), hlog]
    rfl

theorem read_chainsOf_ok {chains : ChainsRead} (h : chains.Of N view) {identifier : Identifier}
    {log : Node.HeldLog} (hlog : logOn N view identifier = .ok log) :
    ∃ chains', (chainsOf N chains identifier).run.read view = some (.ok (log.retained, chains')) ∧
      chains'.Of N view := by
  unfold chainsOf
  cases hget : chains.get identifier with
  | some held =>
    obtain ⟨log', hheld, rfl⟩ := h identifier held hget
    obtain rfl := Except.ok.inj (hheld.symm.trans hlog)
    exact ⟨chains, rfl, h⟩
  | none =>
    dsimp only
    rw [read_bind_eq (read_heldLog identifier) (fun log _ => read_pure _), hlog]
    exact ⟨_, rfl, h.cons hlog⟩

theorem read_heldNodeListsFrom {chains : ChainsRead} (h : chains.Of N view) (stored : List StoredBlob) :
    (heldNodeListsFrom N chains stored).run.read view = some (stored.mapM (resolveOn N view)) := by
  induction stored generalizing chains with
  | nil => rfl
  | cons blob rest ih =>
    rw [List.mapM_cons, resolveOn, bind_assoc]
    apply read_bind_eq (read_liftExcept _)
    intro record _
    cases hlog : logOn N view record.governor with
    | error refusal => exact read_bind_error (read_chainsOf_error h hlog)
    | ok log =>
      obtain ⟨chains', hread, hof⟩ := read_chainsOf_ok h hlog
      rw [read_bind_ok hread]
      exact read_bind_eq (ih hof) (fun held _ => read_pure _)

theorem read_pinnedNodeListsFrom (pins : List NodeListPin) :
    (pinnedNodeListsFrom N pins).run.read view = some (pinnedOn N view pins) := by
  induction pins with
  | nil => rfl
  | cons pin rest ih =>
    rw [pinnedNodeListsFrom, read_bind_ok (read_load _)]
    apply read_bind_eq (read_liftExcept _)
    intro records _
    exact read_bind_eq ih (fun later _ => read_pure _)

theorem read_boundWitnessesFrom {chains : ChainsRead} (h : chains.Of N view) (bound : Bound)
    (entries : List NodeListEntry) :
    (boundWitnessesFrom N chains bound entries).run.read view = some (boundOn N view bound entries) := by
  induction entries generalizing chains bound with
  | nil => rfl
  | cons entry rest ih =>
    rw [boundOn, boundWitnessesFrom]
    cases hlog : logOn N view entry.binding.operator with
    | error refusal => exact read_bind_error (read_chainsOf_error h hlog)
    | ok log =>
      obtain ⟨chains', hread, hof⟩ := read_chainsOf_ok h hlog
      rw [read_bind_ok hread]
      exact ih hof _

theorem chainsRead_nil : ChainsRead.Of N view [] := fun _ _ h => nomatch h

/-- The selection at a routing id is a function of the view. -/
theorem read_selectionAt (routing : RoutingId) :
    (selectionAt N routing).run.read view = some (selectOn N view routing (view routing)) := by
  unfold selectOn
  cases routing with
  | did identifier =>
    rw [selectionAt, read_bind_ok (read_load _)]
    split_ifs with hempty
    · rw [List.isEmpty_iff.mp hempty]
      rfl
    · rfl
  | svc identifier =>
    rw [selectionAt, reselectServiceRecords, read_bind_ok (read_load _)]
    split_ifs
    · rfl
    · rw [keptOn, map_bind_except]
      apply read_bind_eq (read_heldLog _)
      intro log _
      rw [map_bind_except]
      exact read_bind_eq (read_liftExcept _) (fun records _ => read_pure _)
  | nls contextId =>
    rw [selectionAt, reselectNodeList, read_bind_ok (read_load _)]
    split_ifs with hempty
    · rw [List.isEmpty_iff.mp hempty]
      rfl
    · rw [keptOn, map_bind_except]
      exact read_bind_eq (read_heldNodeListsFrom chainsRead_nil _) (fun records _ => read_pure _)
  | wcf subject =>
    rw [selectionAt, reselectConflicts, read_bind_ok (read_load _)]
    split_ifs
    · rfl
    · rw [keptOn, map_bind_except, witnessesOn, bind_assoc]
      apply read_bind_eq (read_pinnedNodeListsFrom _)
      intro lists _
      apply read_bind_eq (read_boundWitnessesFrom chainsRead_nil _ _)
      intro bound _
      rw [map_bind_except]
      apply read_bind_eq (read_heldLog _)
      intro log _
      rw [map_bind_except]
      exact read_bind_eq (read_liftExcept _) (fun frames _ => read_pure _)

theorem logOn_congr {view' : View} {identifier : Identifier}
    (h : view' (.did identifier) = view (.did identifier)) :
    logOn N view' identifier = logOn N view identifier := by
  rw [logOn, logOn, h]

theorem pinnedOn_congr {view' : View} {pins : List NodeListPin}
    (h : ∀ pin ∈ pins, view' (.nls pin.contextId) = view (.nls pin.contextId)) :
    pinnedOn N view' pins = pinnedOn N view pins := by
  induction pins with
  | nil => rfl
  | cons pin rest ih =>
    rw [pinnedOn, pinnedOn, h pin List.mem_cons_self,
      ih (fun other hother => h other (List.mem_cons_of_mem _ hother))]

theorem boundOn_congr {view' : View} (h : ∀ identifier, logOn N view' identifier =
    logOn N view identifier) (bound : Bound) (entries : List NodeListEntry) :
    boundOn N view' bound entries = boundOn N view bound entries := by
  induction entries generalizing bound with
  | nil => rfl
  | cons entry rest ih =>
    simp only [boundOn, h, ih]

/-- What lies at the routing id itself enters only through `held`. -/
theorem keptOn_congr {view' : View} {routing : RoutingId}
    (h : ∀ other, other ≠ routing → view' other = view other) (held : List StoredBlob) :
    keptOn N view' routing held = keptOn N view routing held := by
  cases routing with
  | did identifier => rfl
  | svc identifier =>
    rw [keptOn, keptOn, logOn_congr (h _ (by simp))]
  | nls contextId =>
    have hresolve : resolveOn N view' = resolveOn N view := by
      funext blob
      simp only [resolveOn, logOn_congr (h (.did _) (by simp))]
    rw [keptOn, keptOn, hresolve]
  | wcf subject =>
    have hlog (identifier : Identifier) : logOn N view' identifier = logOn N view identifier :=
      logOn_congr (h _ (by simp))
    have hwitnesses : witnessesOn N view' = witnessesOn N view := by
      simp only [witnessesOn, pinnedOn_congr (fun pin _ => h (.nls pin.contextId) (by simp)),
        boundOn_congr hlog]
    rw [keptOn, keptOn, hwitnesses, hlog]

section Again
variable {ρ σ : Type} [DecidableEq σ] {decode : StoredBlob → Except Refusal ρ} {name : ρ → BlobId}
  {entriesOf : ρ → List (SlotEntry σ ℕ BlobId)}

theorem mapM_filter (hname : ∀ blob record, decode blob = .ok record → name record = blob.blobId)
    (p : BlobId → Bool) {held : List StoredBlob} {records : List ρ}
    (h : held.mapM decode = .ok records) :
    (held.filter (fun blob => p blob.blobId)).mapM decode =
      .ok (records.filter (fun record => p (name record))) := by
  induction held generalizing records with
  | nil =>
    cases h
    rfl
  | cons blob rest ih =>
    simp only [List.mapM_cons, bind_ok_iff, pure_ok_iff] at h
    obtain ⟨record, hrecord, later, hlater, rfl⟩ := h
    rw [List.filter_cons, List.filter_cons, hname blob record hrecord]
    split_ifs
    · rw [List.mapM_cons, hrecord, ih hlater]
      rfl
    · exact ih hlater

theorem mapM_names (hname : ∀ blob record, decode blob = .ok record → name record = blob.blobId)
    {held : List StoredBlob} {records : List ρ} (h : held.mapM decode = .ok records) :
    records.map name = held.map (·.blobId) := by
  induction held generalizing records with
  | nil =>
    cases h
    rfl
  | cons blob rest ih =>
    simp only [List.mapM_cons, bind_ok_iff, pure_ok_iff] at h
    obtain ⟨record, hrecord, later, hlater, rfl⟩ := h
    rw [List.map_cons, List.map_cons, hname blob record hrecord, ih hlater]

/-- Once the records that are not kept are gone, the selection keeps exactly what is left. -/
theorem select_again (hname : ∀ blob record, decode blob = .ok record → name record = blob.blobId)
    (hentries : ∀ record, ∀ e ∈ entriesOf record, e.record = name record)
    {held : List StoredBlob} {records : List ρ} (h : held.mapM decode = .ok records) :
    ∃ left, (held.filter (fun blob => blob.blobId ∈
        BestPerSlot.kept (records.flatMap entriesOf))).mapM decode = .ok left ∧
      ∀ id, id ∈ (held.filter (fun blob => blob.blobId ∈
          BestPerSlot.kept (records.flatMap entriesOf))).map (·.blobId) ↔
        id ∈ BestPerSlot.kept (left.flatMap entriesOf) := by
  have hleft := mapM_filter hname (fun id => decide (id ∈
    BestPerSlot.kept (records.flatMap entriesOf))) h
  refine ⟨_, hleft, ?_⟩
  intro id
  constructor
  · intro hid
    obtain ⟨blob, hblob, rfl⟩ := List.mem_map.mp hid
    exact BestPerSlot.kept_again hentries (of_decide_eq_true (List.mem_filter.mp hblob).2)
  · intro hid
    obtain ⟨e, he, rfl⟩ := BestPerSlot.mem_of_mem_kept hid
    obtain ⟨record, hrecord, he⟩ := List.mem_flatMap.mp he
    rw [hentries record e he, ← mapM_names hname hleft]
    exact List.mem_map.mpr ⟨record, hrecord, rfl⟩

end Again

theorem decodeServiceRecord_name (blob : StoredBlob) (record : BlobId × ServiceRecordFrame)
    (h : decodeServiceRecord N blob = .ok record) : record.1 = blob.blobId := by
  unfold decodeServiceRecord at h
  split at h <;> cases h
  rfl

theorem decodeConflict_name (blob : StoredBlob) (record : BlobId × List ConflictStatement)
    (h : decodeConflict N blob = .ok record) : record.1 = blob.blobId := by
  unfold decodeConflict at h
  split at h <;> cases h
  rfl

theorem resolveOn_name (blob : StoredBlob) (record : HeldNodeList)
    (h : resolveOn N view blob = .ok record) : record.blobId = blob.blobId := by
  simp only [resolveOn, bind_ok_iff, pure_ok_iff] at h
  obtain ⟨_, -, _, -, rfl⟩ := h
  rfl

theorem serviceEntries_record (designated : List Key) (record : BlobId × ServiceRecordFrame) :
    ∀ e ∈ serviceEntries N designated record, e.record = record.1 := by
  intro e he
  obtain ⟨key, -, rfl⟩ := List.mem_map.mp he
  rfl

theorem nodeListEntries_record (held : HeldNodeList) :
    ∀ e ∈ nodeListEntries held, e.record = held.blobId := by
  intro e he
  rw [nodeListEntries, Option.mem_toList] at he
  obtain ⟨signing, -, rfl⟩ := Option.mem_map.mp he
  rfl

theorem conflictEntries_record (subject : Identifier) (chains : List ValidatedChain) (bound : Bound)
    (frame : BlobId × List ConflictStatement) :
    ∀ e ∈ conflictEntries N subject chains bound frame, e.record = frame.1 := by
  intro e he
  obtain ⟨statement, -, rfl⟩ := List.mem_map.mp he
  rfl

theorem keptOn_again {routing : RoutingId} {held : List StoredBlob} {kept : List BlobId}
    (h : keptOn N view routing held = .ok kept) :
    ∃ left, keptOn N view routing (held.filter (fun blob => blob.blobId ∈ kept)) = .ok left ∧
      ∀ id, id ∈ (held.filter (fun blob => blob.blobId ∈ kept)).map (·.blobId) ↔ id ∈ left := by
  cases routing with
  | did identifier => exact ⟨_, rfl, fun _ => Iff.rfl⟩
  | svc identifier =>
    simp only [keptOn, bind_ok_iff, pure_ok_iff] at h
    obtain ⟨log, hlog, records, hrecords, rfl⟩ := h
    obtain ⟨left, hleft, hkept⟩ := select_again decodeServiceRecord_name
      (serviceEntries_record (designatedServiceKeys log.retained)) hrecords
    refine ⟨_, ?_, hkept⟩
    simp only [keptOn, bind_ok_iff, pure_ok_iff]
    exact ⟨log, hlog, left, hleft, rfl⟩
  | nls contextId =>
    simp only [keptOn, bind_ok_iff, pure_ok_iff] at h
    obtain ⟨records, hrecords, rfl⟩ := h
    obtain ⟨left, hleft, hkept⟩ := select_again resolveOn_name nodeListEntries_record hrecords
    refine ⟨_, ?_, hkept⟩
    simp only [keptOn, bind_ok_iff, pure_ok_iff]
    exact ⟨left, hleft, rfl⟩
  | wcf subject =>
    simp only [keptOn, bind_ok_iff, pure_ok_iff] at h
    obtain ⟨bound, hbound, log, hlog, frames, hframes, rfl⟩ := h
    obtain ⟨left, hleft, hkept⟩ := select_again decodeConflict_name
      (conflictEntries_record subject log.retained bound) hframes
    refine ⟨_, ?_, hkept⟩
    simp only [keptOn, bind_ok_iff, pure_ok_iff]
    exact ⟨bound, hbound, log, hlog, left, hleft, rfl⟩

/-- A routing id at which no record lies is settled. -/
theorem settled_empty {routing : RoutingId} (h : view routing = []) : Settled N view routing := by
  refine ⟨⟨[], []⟩, ?_, by simp⟩
  rw [read_selectionAt, h]
  rfl

/-- Dropping what a selection does not keep settles the routing id. -/
theorem settled_of_kept {view' : View} {routing : RoutingId} {held : List StoredBlob}
    {kept : List BlobId} (h : keptOn N view routing held = .ok kept)
    (hothers : ∀ other, other ≠ routing → view' other = view other)
    (hleft : view' routing = held.filter (fun blob => blob.blobId ∈ kept)) :
    Settled N view' routing := by
  by_cases hempty : view' routing = []
  · exact settled_empty hempty
  obtain ⟨left, hkept, hids⟩ := keptOn_again h
  refine ⟨⟨view' routing, left⟩, ?_, ?_⟩
  · rw [read_selectionAt, selectOn, if_neg (by simpa using hempty), keptOn_congr hothers, hleft, hkept]
    rfl
  · rw [hleft]
    exact hids

theorem settled_of_selected {view' : View} {routing : RoutingId} {held : List StoredBlob}
    {selection : Selection} (h : selectOn N view routing held = .ok selection)
    (hothers : ∀ other, other ≠ routing → view' other = view other)
    (hleft : view' routing = held.filter (fun blob => blob.blobId ∈ selection.kept)) :
    Settled N view' routing := by
  unfold selectOn at h
  split_ifs at h with hempty
  · apply settled_empty
    rw [hleft, List.isEmpty_iff.mp hempty]
    rfl
  · cases hkept : keptOn N view routing held with
    | error refusal =>
      rw [hkept] at h
      cases h
    | ok kept =>
      rw [hkept] at h
      cases h
      exact settled_of_kept hkept hothers hleft

/-- The records of an admission with the arriving one decode as the stored ones would. -/
theorem mapM_arriving {ρ : Type} {decode : StoredBlob → Except Refusal ρ} {held : List StoredBlob}
    {records : List ρ} (h : held.mapM decode = .ok records) {blob : StoredBlob} {record : ρ}
    (hblob : decode blob = .ok record) :
    (held ++ [blob]).mapM decode = .ok (records ++ [record]) := by
  rw [List.mapM_append, h]
  simp only [bind_ok_iff, pure_ok_iff, List.mapM_cons, List.mapM_nil]
  exact ⟨records, rfl, [record], ⟨record, hblob, [], rfl, rfl⟩, rfl⟩

theorem admitServiceRecord_selects {blobId : BlobId} {record : ServiceRecordFrame}
    {selection : Selection} (hcontent : N.content blobId = .service record)
    (h : (admitServiceRecord N blobId record).run.read view = some (.ok selection)) :
    selection.held = view (.svc record.identifier) ∧ ∀ blob : StoredBlob, blob.blobId = blobId →
      keptOn N view (.svc record.identifier) (selection.held ++ [blob]) = .ok selection.kept := by
  have hread : (admitServiceRecord N blobId record).run.read view = some (do
      let log ← logOn N view record.identifier
      require (!log.retained.isEmpty) .noKeyEventLog
      require ((designatedServiceKeys log.retained).any (record.verify N)) .noServiceKey
      let records ← decodeServiceRecords N (view (.svc record.identifier))
      pure ⟨view (.svc record.identifier), selectServiceRecords N (records ++ [(blobId, record)])
        (designatedServiceKeys log.retained)⟩) := by
    apply read_bind_eq (read_heldLog _)
    intro log _
    apply read_bind_eq (read_liftExcept _)
    intro _ _
    apply read_bind_eq (read_liftExcept _)
    intro _ _
    rw [read_bind_ok (read_load _)]
    exact read_bind_eq (read_liftExcept _) (fun records _ => read_pure _)
  rw [hread, Option.some.injEq] at h
  simp only [bind_ok_iff, pure_ok_iff, exists_unit_iff] at h
  obtain ⟨log, hlog, -, -, records, hrecords, rfl⟩ := h
  refine ⟨rfl, fun blob hblob => ?_⟩
  have hdecode : decodeServiceRecord N blob = .ok (blobId, record) := by
    rw [decodeServiceRecord, hblob, hcontent]
  simp only [keptOn, bind_ok_iff, pure_ok_iff]
  exact ⟨log, hlog, _, mapM_arriving hrecords hdecode, rfl⟩

theorem admitNodeList_selects {blobId : BlobId} {record : NodeListRecord} {selection : Selection}
    (hcontent : N.content blobId = .nodeList record)
    (h : (admitNodeList N blobId record).run.read view = some (.ok selection)) :
    selection.held = view (.nls record.contextId) ∧ ∀ blob : StoredBlob, blob.blobId = blobId →
      keptOn N view (.nls record.contextId) (selection.held ++ [blob]) = .ok selection.kept := by
  have hread : (admitNodeList N blobId record).run.read view = some (do
      require (N.nodeLists.any (fun pin =>
        pin.contextId = record.contextId && pin.governor = record.governor)) .notPinned
      let log ← logOn N view record.governor
      let signing ← (verifyNodeList N log.retained record).mapError .nodeList
      require (!signing.compromised) .compromised
      let records ← (view (.nls record.contextId)).mapM (resolveOn N view)
      pure ⟨view (.nls record.contextId),
        selectNodeLists (records ++ [⟨blobId, record, some signing⟩])⟩) := by
    apply read_bind_eq (read_liftExcept _)
    intro _ _
    apply read_bind_eq (read_heldLog _)
    intro log _
    apply read_bind_eq (read_liftExcept _)
    intro signing _
    apply read_bind_eq (read_liftExcept _)
    intro _ _
    rw [read_bind_ok (read_load _)]
    exact read_bind_eq (read_heldNodeListsFrom chainsRead_nil _) (fun records _ => read_pure _)
  rw [hread, Option.some.injEq] at h
  simp only [bind_ok_iff, pure_ok_iff, exists_unit_iff, mapError_ok_iff] at h
  obtain ⟨-, log, hlog, signing, hsigning, -, records, hrecords, rfl⟩ := h
  refine ⟨rfl, fun blob hblob => ?_⟩
  have hresolve : resolveOn N view blob = .ok ⟨blobId, record, some signing⟩ := by
    rw [resolveOn, decodeNodeList, hblob, hcontent]
    simp only [bind_ok_iff, pure_ok_iff]
    exact ⟨record, rfl, log, hlog, by rw [hsigning]; rfl⟩
  simp only [keptOn, bind_ok_iff, pure_ok_iff]
  exact ⟨_, mapM_arriving hrecords hresolve, rfl⟩

theorem admitConflicts_selects {blobId : BlobId} {subject : Identifier}
    {statements : List ConflictStatement} {selection : Selection}
    (hcontent : N.content blobId = .conflicts subject statements)
    (h : (admitConflicts N blobId subject statements).run.read view = some (.ok selection)) :
    selection.held = view (.wcf subject) ∧ ∀ blob : StoredBlob, blob.blobId = blobId →
      keptOn N view (.wcf subject) (selection.held ++ [blob]) = .ok selection.kept := by
  have hread : (admitConflicts N blobId subject statements).run.read view = some (do
      let bound ← witnessesOn N view
      let log ← logOn N view subject
      (statements.findIdx? (fun s =>
        !statementAdmissible N s subject log.retained bound)).elim (do
          let frames ← decodeConflicts N (view (.wcf subject))
          pure ⟨view (.wcf subject), selectConflicts N (frames ++ [(blobId, statements)]) subject
            log.retained bound⟩) (fun index => .error (.inadmissible index))) := by
    rw [witnessesOn, bind_assoc]
    apply read_bind_eq (read_pinnedNodeListsFrom _)
    intro lists _
    apply read_bind_eq (read_boundWitnessesFrom chainsRead_nil _ _)
    intro bound _
    apply read_bind_eq (read_heldLog _)
    intro log _
    dsimp only
    cases statements.findIdx? (fun s => !statementAdmissible N s subject log.retained bound) with
    | some index => rfl
    | none =>
      dsimp only
      rw [read_bind_ok (read_load _)]
      exact read_bind_eq (read_liftExcept _) (fun frames _ => read_pure _)
  rw [hread, Option.some.injEq] at h
  simp only [bind_ok_iff] at h
  obtain ⟨bound, hbound, log, hlog, h⟩ := h
  cases hindex : statements.findIdx? (fun s =>
    !statementAdmissible N s subject log.retained bound) with
  | some index =>
    rw [hindex] at h
    cases h
  | none =>
  rw [hindex] at h
  simp only [Option.elim_none, bind_ok_iff, pure_ok_iff] at h
  obtain ⟨frames, hframes, rfl⟩ := h
  refine ⟨rfl, fun blob hblob => ?_⟩
  have hdecode : decodeConflict N blob = .ok (blobId, statements) := by
    rw [decodeConflict, hblob, hcontent]
  simp only [keptOn, bind_ok_iff, pure_ok_iff]
  exact ⟨bound, hbound, log, hlog, _, mapM_arriving hframes hdecode, rfl⟩

end Selections

end ScpCore.Records
