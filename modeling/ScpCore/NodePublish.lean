import ScpCore.NodeReselections

/-! What a publish reads and owes. Each selection reads only its inputs, and a publish pays
all it came to owe, provided that its reselections can read the key-event logs. -/

namespace ScpCore.Records
open Kel

section Loads
variable {N : Setting} {α β : Type} {routing : RoutingId} {reads : Reads}

theorem loads_fallible_bind {x : Fallible α} {f : α → Fallible β}
    {post : Reads → Except Refusal β → Prop}
    (h : x.run.Loads N routing reads (fun reads' result =>
      (ExceptT.bindCont f result).Loads N routing reads' post)) :
    (x >>= f).run.Loads N routing reads post :=
  Action.loads_bind h

theorem loads_load {input : RoutingId} {post : Reads → Except Refusal (List StoredBlob) → Prop}
    (hinput : Inputs N routing reads input)
    (h : ∀ held, (∀ blob ∈ held, Belongs N input blob) → post ((input, held) :: reads) (.ok held)) :
    (load input).run.Loads N routing reads post :=
  ⟨hinput, h⟩

/-- More was read, of other routing ids. -/
structure Grows (routing : RoutingId) (reads reads' : Reads) : Prop where
  sub : reads ⊆ reads'
  others : ∀ read ∈ reads', read ∈ reads ∨ read.1 ≠ routing

theorem Grows.refl : Grows routing reads reads := ⟨List.Subset.refl _, fun _ h => .inl h⟩

theorem Grows.trans {reads' reads'' : Reads} (h : Grows routing reads reads')
    (h' : Grows routing reads' reads'') : Grows routing reads reads'' := by
  refine ⟨List.Subset.trans h.sub h'.sub, ?_⟩
  intro read hread
  rcases h'.others read hread with hread | hne
  · exact h.others read hread
  · exact .inr hne

theorem Grows.cons {input : RoutingId} (h : Others N routing reads input) (held : List StoredBlob) :
    Grows routing reads ((input, held) :: reads) := by
  refine ⟨List.subset_cons_self _ _, ?_⟩
  intro read hread
  rcases List.mem_cons.mp hread with rfl | hread
  · exact .inr h.ne
  · exact .inl hread

theorem loads_heldLog {identifier : Identifier} {post : Reads → Except Refusal Node.HeldLog → Prop}
    (hinput : Others N routing reads (.did identifier))
    (h : ∀ reads' x, Grows routing reads reads' → post reads' x) :
    (heldLog N identifier).run.Loads N routing reads post :=
  loads_fallible_bind (loads_load (.inr hinput) (fun held _ => h _ _ (.cons hinput held)))

theorem loads_chainsOf {chains : ChainsRead} {identifier : Identifier}
    {post : Reads → Except Refusal (List ValidatedChain × ChainsRead) → Prop}
    (hinput : Others N routing reads (.did identifier))
    (h : ∀ reads' x, Grows routing reads reads' → post reads' x) :
    (chainsOf N chains identifier).run.Loads N routing reads post := by
  unfold chainsOf
  cases chains.get identifier with
  | some held => exact h _ _ .refl
  | none =>
    apply loads_fallible_bind
    apply loads_heldLog hinput
    intro reads' result hsub
    cases result with
    | ok log => exact h _ _ hsub
    | error refusal => exact h _ _ hsub

theorem loads_heldNodeListsFrom {chains : ChainsRead} {stored : List StoredBlob}
    {post : Reads → Except Refusal (List HeldNodeList) → Prop}
    (hinput : ∀ blob ∈ stored, ∀ record, N.content blob.blobId = .nodeList record →
      Others N routing reads (.did record.governor))
    (h : ∀ reads' x, Grows routing reads reads' → post reads' x) :
    (heldNodeListsFrom N chains stored).run.Loads N routing reads post := by
  induction stored generalizing chains reads post with
  | nil => exact h _ _ .refl
  | cons blob rest ih =>
    apply loads_fallible_bind
    unfold decodeNodeList
    split
    · rename_i record hcontent
      apply loads_fallible_bind
      apply loads_chainsOf (hinput blob List.mem_cons_self record hcontent)
      intro reads' result hsub
      cases result with
      | error refusal => exact h _ _ hsub
      | ok read =>
        apply loads_fallible_bind
        apply ih
        · intro other hother record hrecord
          exact (hinput other (List.mem_cons_of_mem _ hother) record hrecord).mono hsub.sub
        · intro reads'' result hsub'
          cases result with
          | error refusal => exact h _ _ (hsub.trans hsub')
          | ok held => exact h _ _ (hsub.trans hsub')
    · exact h _ _ .refl

theorem mem_mapM_ok {ρ : Type} {decode : StoredBlob → Except Refusal ρ} {held : List StoredBlob}
    {records : List ρ} (h : held.mapM decode = .ok records) {record : ρ} (hrecord : record ∈ records) :
    ∃ blob ∈ held, decode blob = .ok record := by
  induction held generalizing records with
  | nil =>
    cases h
    cases hrecord
  | cons blob rest ih =>
    simp only [List.mapM_cons, bind_ok_iff, pure_ok_iff] at h
    obtain ⟨first, hfirst, later, hlater, rfl⟩ := h
    rcases List.mem_cons.mp hrecord with rfl | hrecord
    · exact ⟨blob, List.mem_cons_self, hfirst⟩
    · obtain ⟨other, hother, hdecode⟩ := ih hlater hrecord
      exact ⟨other, List.mem_cons_of_mem _ hother, hdecode⟩

theorem decodeNodeList_ok {blob : StoredBlob} {record : NodeListRecord}
    (h : decodeNodeList N blob = .ok record) : N.content blob.blobId = .nodeList record := by
  unfold decodeNodeList at h
  split at h
  · rename_i found hfound
    cases h
    exact hfound
  · cases h

/-- A node list of the reads, with its operators. -/
def ReadList (N : Setting) (reads : Reads) (record : NodeListRecord) : Prop :=
  ∃ pin ∈ N.nodeLists, ∃ held, (.nls pin.contextId, held) ∈ reads ∧
    ∀ entry ∈ record.entries, Names N held entry.binding.operator

theorem loads_pinnedNodeListsFrom {subject : Identifier} {pins : List NodeListPin}
    {post : Reads → Except Refusal (List NodeListRecord) → Prop} (hpins : pins ⊆ N.nodeLists)
    (h : ∀ reads' result, Grows (.wcf subject) reads reads' →
      (∀ lists, result = .ok lists → ∀ record ∈ lists, ReadList N reads' record) →
      post reads' result) :
    (pinnedNodeListsFrom N pins).run.Loads N (.wcf subject) reads post := by
  induction pins generalizing reads post with
  | nil =>
    refine h _ _ .refl ?_
    intro lists hlists record hrecord
    cases hlists
    cases hrecord
  | cons pin rest ih =>
    have hpin : pin ∈ N.nodeLists := hpins List.mem_cons_self
    apply loads_fallible_bind
    have hother : Others N (.wcf subject) reads (.nls pin.contextId) :=
      Or.inr (.inl ⟨pin, hpin, rfl⟩)
    apply loads_load (.inr hother)
    intro stored hstored
    apply loads_fallible_bind
    cases hrecords : stored.mapM (decodeNodeList N) with
    | error refusal =>
      refine h _ _ (.cons hother stored) ?_
      intro lists hlists
      cases hlists
    | ok records =>
      apply loads_fallible_bind
      apply ih (fun other hother => hpins (List.mem_cons_of_mem _ hother))
      intro reads' result hsub hlists
      have hsub' := (Grows.cons hother stored).trans hsub
      cases result with
      | error refusal =>
        refine h _ _ hsub' ?_
        intro lists hlists
        cases hlists
      | ok later =>
        refine h _ _ hsub' ?_
        intro lists heq record hrecord
        cases heq
        rcases List.mem_append.mp hrecord with hrecord | hrecord
        · -- The record decoded from a blob of this pin's load.
          obtain ⟨blob, hblob, hdecode⟩ :=
            mem_mapM_ok hrecords (List.mem_of_mem_filter hrecord)
          refine ⟨pin, hpin, stored, hsub.sub List.mem_cons_self, ?_⟩
          intro entry hentry
          exact ⟨blob, hblob, record, decodeNodeList_ok hdecode, entry, hentry, rfl⟩
        · exact hlists later rfl record hrecord

theorem loads_boundWitnessesFrom {chains : ChainsRead} {bound : Bound} {entries : List NodeListEntry}
    {post : Reads → Except Refusal Bound → Prop}
    (hinput : ∀ entry ∈ entries, Others N routing reads (.did entry.binding.operator))
    (h : ∀ reads' x, Grows routing reads reads' → post reads' x) :
    (boundWitnessesFrom N chains bound entries).run.Loads N routing reads post := by
  induction entries generalizing chains bound reads post with
  | nil => exact h _ _ .refl
  | cons entry rest ih =>
    apply loads_fallible_bind
    apply loads_chainsOf (hinput entry List.mem_cons_self)
    intro reads' result hsub
    cases result with
    | error refusal => exact h _ _ hsub
    | ok read =>
      apply ih
      · intro other hother
        exact (hinput other (List.mem_cons_of_mem _ hother)).mono hsub.sub
      · intro reads'' result hsub'
        exact h _ _ (hsub.trans hsub')

/-- The selection read the routing id's own records, and they belong there. -/
def ReadOwn (N : Setting) (routing : RoutingId) (reads : Reads) (result : Except Refusal Selection) :
    Prop :=
  ∀ selection, result = .ok selection → (routing, selection.held) ∈ reads ∧
    ∀ blob ∈ selection.held, Belongs N routing blob

theorem readOwn_error {refusal : Refusal} : ReadOwn N routing reads (.error refusal) :=
  fun _ h => nomatch h

theorem readOwn_ok {held : List StoredBlob} {kept : List BlobId} (hread : (routing, held) ∈ reads)
    (hheld : ∀ blob ∈ held, Belongs N routing blob) : ReadOwn N routing reads (.ok ⟨held, kept⟩) := by
  intro selection hselection
  cases hselection
  exact ⟨hread, hheld⟩

theorem inputs_own {reads : Reads} (h : Grows routing [] reads) : Inputs N routing reads routing :=
  .inl ⟨rfl, fun read hread => (h.others read hread).resolve_left (by simp)⟩

theorem loads_own {reads : Reads} {post : Reads → Except Refusal (List StoredBlob) → Prop}
    (hreads : Grows routing [] reads) (h : ∀ held, (∀ blob ∈ held, Belongs N routing blob) →
      post ((routing, held) :: reads) (.ok held)) :
    (load routing).run.Loads N routing reads post :=
  loads_load (inputs_own hreads) h

/-- The governor of a stored node list is pinned, so its log is an input. -/
theorem others_governor {contextId : String} {held : List StoredBlob}
    (hheld : ∀ blob ∈ held, Belongs N (.nls contextId) blob) :
    ∀ blob ∈ held, ∀ record, N.content blob.blobId = .nodeList record →
      Others N (.nls contextId) reads (.did record.governor) := by
  intro blob hblob record hrecord
  have hnamed := (hheld blob hblob).named
  have hpinned := (hheld blob hblob).pinned record hrecord
  rw [hrecord, Record.routingId, RoutingId.nls.injEq] at hnamed
  rw [hnamed] at hpinned
  exact ⟨record.governor, hpinned, rfl⟩

/-- The witnesses of the pinned node lists and the subject's log. -/
theorem loads_witnesses {subject : Identifier} {post : Reads → Except Refusal β → Prop}
    {next : Bound → Fallible β}
    (h : ∀ reads' bound, Grows (.wcf subject) reads reads' →
      (next bound).run.Loads N (.wcf subject) reads' post)
    (herror : ∀ reads' refusal, Grows (.wcf subject) reads reads' → post reads' (.error refusal)) :
    ((do let lists ← pinnedNodeLists N
         let bound ← boundWitnesses N lists
         next bound : Fallible β)).run.Loads N (.wcf subject) reads post := by
  apply loads_fallible_bind
  apply loads_pinnedNodeListsFrom (List.Subset.refl _)
  intro reads' result hgrows hlists
  cases result with
  | error refusal => exact herror _ _ hgrows
  | ok lists =>
    apply loads_fallible_bind
    apply loads_boundWitnessesFrom
    · intro entry hentry
      obtain ⟨record, hrecord, hentry⟩ := List.mem_flatMap.mp hentry
      obtain ⟨pin, hpin, held, hheld, hnames⟩ := hlists lists rfl record hrecord
      exact Or.inr (.inr ⟨pin, hpin, held, hheld, _, hnames entry hentry, rfl⟩)
    · intro reads'' result hgrows'
      cases result with
      | error refusal => exact herror _ _ (hgrows.trans hgrows')
      | ok bound => exact h _ _ (hgrows.trans hgrows')

theorem loads_selectionAt (routing : RoutingId) :
    (selectionAt N routing).run.Loads N routing [] (ReadOwn N routing) := by
  cases routing with
  | did identifier =>
    apply loads_fallible_bind
    apply loads_own .refl
    intro held hheld
    exact readOwn_ok List.mem_cons_self hheld
  | svc identifier =>
    apply loads_fallible_bind
    apply loads_own .refl
    intro held hheld
    dsimp only [ExceptT.bindCont]
    split_ifs
    · exact readOwn_ok List.mem_cons_self hheld
    · apply loads_fallible_bind
      apply loads_heldLog (show Others N (.svc identifier) _ _ from rfl)
      intro reads' result hgrows
      cases result with
      | error refusal => exact readOwn_error
      | ok log =>
        apply loads_fallible_bind
        cases decodeServiceRecords N held with
        | error refusal => exact readOwn_error
        | ok records => exact readOwn_ok (hgrows.sub List.mem_cons_self) hheld
  | nls contextId =>
    apply loads_fallible_bind
    apply loads_own .refl
    intro held hheld
    apply loads_fallible_bind
    apply loads_heldNodeListsFrom (others_governor hheld)
    intro reads' result hgrows
    cases result with
    | error refusal => exact readOwn_error
    | ok records => exact readOwn_ok (hgrows.sub List.mem_cons_self) hheld
  | wcf subject =>
    apply loads_fallible_bind
    apply loads_own .refl
    intro held hheld
    dsimp only [ExceptT.bindCont]
    split_ifs
    · exact readOwn_ok List.mem_cons_self hheld
    · apply loads_witnesses
      · intro reads' bound hgrows
        apply loads_fallible_bind
        apply loads_heldLog (show Others N (.wcf subject) _ _ from Or.inl rfl)
        intro reads'' result hgrows'
        cases result with
        | error refusal => exact readOwn_error
        | ok log =>
          apply loads_fallible_bind
          cases decodeConflicts N held with
          | error refusal => exact readOwn_error
          | ok frames =>
            exact readOwn_ok (hgrows'.sub (hgrows.sub List.mem_cons_self)) hheld
      · exact fun _ _ _ => readOwn_error

theorem loads_liftExcept {result : Except Refusal α} {post : Reads → Except Refusal α → Prop}
    (h : post reads result) : (liftExcept result).run.Loads N routing reads post := h

theorem loads_admitKeyEvents (blobId : BlobId) (frame : Node.KeyEventFrame) :
    (admitKeyEvents N blobId frame).run.Loads N (.did frame.identifier) []
      (ReadOwn N (.did frame.identifier)) := by
  apply loads_fallible_bind
  apply loads_own .refl
  intro stored hstored
  apply loads_fallible_bind
  apply loads_liftExcept
  cases heldLogFrom N frame.identifier stored with
  | error refusal => exact readOwn_error
  | ok held =>
    apply loads_liftExcept
    intro selection hselection
    simp only [selectArriving, bind_ok_iff, exists_unit_iff, Prod.exists, pure_ok_iff] at hselection
    obtain ⟨-, -, -, -, -, -, rfl⟩ := hselection
    exact ⟨List.mem_cons_self, hstored⟩

theorem loads_admitServiceRecord (blobId : BlobId) (record : ServiceRecordFrame) :
    (admitServiceRecord N blobId record).run.Loads N (.svc record.identifier) []
      (ReadOwn N (.svc record.identifier)) := by
  apply loads_fallible_bind
  apply loads_heldLog (show Others N (.svc record.identifier) _ _ from rfl)
  intro reads result hgrows
  cases result with
  | error refusal => exact readOwn_error
  | ok log =>
    apply loads_fallible_bind
    apply loads_liftExcept
    cases require (!log.retained.isEmpty) Refusal.noKeyEventLog with
    | error refusal => exact readOwn_error
    | ok u =>
      apply loads_fallible_bind
      apply loads_liftExcept
      cases require ((designatedServiceKeys log.retained).any (record.verify N))
        Refusal.noServiceKey with
      | error refusal => exact readOwn_error
      | ok u =>
        apply loads_fallible_bind
        apply loads_own hgrows
        intro held hheld
        apply loads_fallible_bind
        apply loads_liftExcept
        cases decodeServiceRecords N held with
        | error refusal => exact readOwn_error
        | ok records => exact readOwn_ok List.mem_cons_self hheld

theorem loads_admitNodeList (blobId : BlobId) (record : NodeListRecord) :
    (admitNodeList N blobId record).run.Loads N (.nls record.contextId) [] (fun reads result =>
      ReadOwn N (.nls record.contextId) reads result ∧
      ∀ selection, result = .ok selection → Pinned N record.contextId record.governor) := by
  have herror {reads : Reads} {refusal : Refusal} :
      ReadOwn N (.nls record.contextId) reads (.error refusal) ∧ ∀ selection : Selection,
        Except.error refusal = .ok selection → Pinned N record.contextId record.governor :=
    ⟨readOwn_error, fun _ h => nomatch h⟩
  apply loads_fallible_bind
  apply loads_liftExcept
  cases hrequire : require (N.nodeLists.any (fun pin =>
    pin.contextId = record.contextId && pin.governor = record.governor)) Refusal.notPinned with
  | error refusal => exact herror
  | ok u =>
    have hpinned : Pinned N record.contextId record.governor := by
      simpa [Pinned, require_ok_iff] using hrequire
    apply loads_fallible_bind
    apply loads_heldLog (show Others N (.nls record.contextId) _ _ from ⟨_, hpinned, rfl⟩)
    intro reads result hgrows
    cases result with
    | error refusal => exact herror
    | ok log =>
      apply loads_fallible_bind
      apply loads_liftExcept
      cases (verifyNodeList N log.retained record).mapError Refusal.nodeList with
      | error refusal => exact herror
      | ok signing =>
        apply loads_fallible_bind
        apply loads_liftExcept
        cases require (!signing.compromised) Refusal.compromised with
        | error refusal => exact herror
        | ok u =>
          apply loads_fallible_bind
          apply loads_own hgrows
          intro held hheld
          apply loads_fallible_bind
          apply loads_heldNodeListsFrom (others_governor hheld)
          intro reads' result hgrows'
          cases result with
          | error refusal => exact herror
          | ok records =>
            exact ⟨readOwn_ok (hgrows'.sub List.mem_cons_self) hheld, fun _ _ => hpinned⟩

theorem loads_admitConflicts (blobId : BlobId) (subject : Identifier)
    (statements : List ConflictStatement) :
    (admitConflicts N blobId subject statements).run.Loads N (.wcf subject) []
      (ReadOwn N (.wcf subject)) := by
  apply loads_witnesses
  · intro reads bound hgrows
    apply loads_fallible_bind
    apply loads_heldLog (show Others N (.wcf subject) _ _ from Or.inl rfl)
    intro reads' result hgrows'
    cases result with
    | error refusal => exact readOwn_error
    | ok log =>
      dsimp only [ExceptT.bindCont]
      cases statements.findIdx? (fun s => !statementAdmissible N s subject log.retained bound) with
      | some index => exact readOwn_error
      | none =>
        apply loads_fallible_bind
        apply loads_own (hgrows.trans hgrows')
        intro held hheld
        apply loads_fallible_bind
        apply loads_liftExcept
        cases decodeConflicts N held with
        | error refusal => exact readOwn_error
        | ok frames => exact readOwn_ok List.mem_cons_self hheld
  · exact fun _ _ _ => readOwn_error

/-- An admission reads the inputs of its selection, its own records among them, and lets a
node list through only for a pinned pair. -/
theorem loads_admission (blobId : BlobId) :
    (admission N blobId).run.Loads N (N.content blobId).routingId [] (fun reads result =>
      ReadOwn N (N.content blobId).routingId reads result ∧
      ∀ selection, result = .ok selection → ∀ record, N.content blobId = .nodeList record →
        Pinned N record.contextId record.governor) := by
  unfold admission
  cases hcontent : N.content blobId with
  | keyEvents frame =>
    exact (loads_admitKeyEvents blobId frame).mono (fun _ _ h => ⟨h, fun _ _ _ h => nomatch h⟩)
  | service record =>
    exact (loads_admitServiceRecord blobId record).mono (fun _ _ h => ⟨h, fun _ _ _ h => nomatch h⟩)
  | nodeList record =>
    refine (loads_admitNodeList blobId record).mono (fun _ _ h => ⟨h.1, ?_⟩)
    intro selection hselection record' hrecord
    cases hrecord
    exact h.2 selection hselection
  | conflicts subject statements =>
    exact (loads_admitConflicts blobId subject statements).mono
      (fun _ _ h => ⟨h, fun _ _ _ h => nomatch h⟩)

end Loads

section Writes
variable {N : Setting} {α β : Type} {g : Ledger} {routing : RoutingId} {rest : List RoutingId}

theorem safe_fallible_bind {x : Fallible α} {f : α → Fallible β}
    {post : Ledger → Except Refusal β → Prop}
    (h : x.run.Safe N g (fun g' result => (ExceptT.bindCont f result).Safe N g' post)) :
    (x >>= f).run.Safe N g post :=
  Action.safe_bind h

theorem rewrite_rewrite (first second : List StoredBlob → List StoredBlob) (reads : Reads) :
    rewrite routing second (rewrite routing first reads) =
      rewrite routing (second ∘ first) reads := by
  rw [rewrite, rewrite, List.map_map, rewrite]
  apply List.map_congr_left
  intro read _
  dsimp only [Function.comp]
  split_ifs with h
  · rfl
  · rfl

theorem rewrite_self (reads : Reads) {write : List StoredBlob → List StoredBlob}
    (h : ∀ held, write held = held) : rewrite routing write reads = reads := by
  rw [rewrite]
  conv_rhs => rw [← List.map_id reads]
  apply List.map_congr_left
  intro read _
  simp [h]

theorem mem_rewrite {write : List StoredBlob → List StoredBlob} {reads : Reads}
    {held : List StoredBlob} (h : (routing, held) ∈ reads) :
    (routing, write held) ∈ rewrite routing write reads :=
  List.mem_map.mpr ⟨_, h, if_pos rfl⟩

/-- What is left of `stored` when the records of `held` that are not kept are gone. -/
def dropping (kept : List BlobId) (held stored : List StoredBlob) : List StoredBlob :=
  stored.filter (fun blob => ∀ dropped ∈ held, dropped.blobId = blob.blobId → dropped.blobId ∈ kept)

theorem safe_dropFrom {kept : List BlobId} {held : List StoredBlob}
    {post : Ledger → Except Refusal Unit → Prop} (hstack : g.stack = routing :: rest)
    (hnamed : ∀ blob ∈ held, (N.content blob.blobId).routingId = routing)
    (h : ∀ owed, g.owed ⊆ owed → owed ⊆ g.owed ∪ affected N routing →
      post ⟨g.stack, rewrite routing (dropping kept held) g.reads, owed⟩ (.ok ())) :
    (dropFrom kept held).Safe N g post := by
  induction held generalizing g with
  | nil =>
    have hself := h g.owed subset_rfl Set.subset_union_left
    rw [rewrite_self _ (by simp [dropping])] at hself
    exact hself
  | cons blob later ih =>
    have hlater : ∀ b ∈ later, (N.content b.blobId).routingId = routing :=
      fun b hb => hnamed b (List.mem_cons_of_mem _ hb)
    unfold dropFrom
    split_ifs with hkept
    · apply ih hstack hlater
      intro owed hsub hsup
      have hsame : dropping kept (blob :: later) = dropping kept later := by
        funext stored
        apply List.filter_congr
        intro x _
        simp [hkept]
      rw [← hsame]
      exact h owed hsub hsup
    · refine ⟨rest, by rw [hstack, hnamed blob List.mem_cons_self], ?_⟩
      rw [hnamed blob List.mem_cons_self]
      have hstack' : (g.wrote N routing (·.filter (fun b => b.blobId ≠ blob.blobId))).stack =
          routing :: rest := hstack
      apply ih hstack' hlater
      intro owed hsub hsup
      have hsame : dropping kept later ∘ (·.filter (fun b => b.blobId ≠ blob.blobId)) =
          dropping kept (blob :: later) := by
        funext stored
        rw [Function.comp, dropping, dropping, List.filter_filter]
        apply List.filter_congr
        intro x _
        by_cases hx : x.blobId = blob.blobId
        · simp [hx, hkept]
        · simp [hx, Ne.symm hx]
      have hgoal := h owed (Set.subset_union_left.trans hsub) (by
        intro r hr
        rcases hsup hr with hr | hr
        · exact hr
        · exact .inr hr)
      rw [Ledger.wrote, rewrite_rewrite, hsame]
      exact hgoal

/-- A blob stored under its lock, in the place of a copy with a TTL. -/
theorem safe_storeBlob {blobId : BlobId} {admission : ℕ} {held : List StoredBlob}
    {post : Ledger → Except Refusal StoredBlob → Prop}
    (hstack : g.stack = (N.content blobId).routingId :: rest)
    (hread : ((N.content blobId).routingId, held) ∈ g.reads)
    (hnew : ∀ blob ∈ held, blob.blobId ≠ blobId)
    (hlast : ∀ blob ∈ held, ∀ a ∈ blob.lifetime.admission, a < admission)
    (hpinned : ∀ record, N.content blobId = .nodeList record →
      Pinned N record.contextId record.governor)
    (herror : ∀ refusal, post g (.error refusal))
    (h : ∀ blob write owed, blob.blobId = blobId → write held = held ++ [blob] → g.owed ⊆ owed →
      owed ⊆ g.owed ∪ affected N (N.content blobId).routingId →
      affected N (N.content blobId).routingId ⊆ owed →
      post ⟨g.stack, rewrite (N.content blobId).routingId write g.reads, owed⟩ (.ok blob)) :
    (storeBlob N blobId admission).run.Safe N g post := by
  have hbelongs (now : ℕ) : Belongs N (N.content blobId).routingId
      ⟨(N.content blobId).routingId, blobId, .retained admission, now⟩ :=
    ⟨rfl, rfl, rfl, hpinned⟩
  intro elsewhere
  cases elsewhere with
  | none =>
    refine ⟨rest, held, hstack, hread, hnew, hlast, fun now => ⟨hbelongs now, ?_⟩⟩
    exact h _ _ _ rfl rfl Set.subset_union_left subset_rfl Set.subset_union_right
  | some copy =>
    change ((if copy.lifetime.isRetained then _ else _ : Action _).bind _).Safe N g post
    split_ifs
    · exact herror _
    · -- The copy is gone from what was read too, where it never was.
      refine ⟨rest, hstack, rest, _, hstack, mem_rewrite hread, ?_, ?_, fun now => ⟨hbelongs now, ?_⟩⟩
      · exact fun blob hblob => hnew blob (List.mem_of_mem_filter hblob)
      · exact fun blob hblob => hlast blob (List.mem_of_mem_filter hblob)
      · have hsame : held.filter (fun blob => blob.blobId ≠ blobId) = held :=
          List.filter_eq_self.mpr (fun blob hblob => decide_eq_true (hnew blob hblob))
        have hgoal := h ⟨(N.content blobId).routingId, blobId, .retained admission, now⟩
          ((· ++ [⟨(N.content blobId).routingId, blobId, .retained admission, now⟩]) ∘
            (·.filter (fun blob => blob.blobId ≠ blobId)))
          (g.owed ∪ affected N (N.content blobId).routingId ∪
            affected N (N.content blobId).routingId) rfl
          (by rw [Function.comp, hsame]) (Set.subset_union_left.trans Set.subset_union_left)
          (Set.union_subset subset_rfl Set.subset_union_right) Set.subset_union_right
        rw [← rewrite_rewrite] at hgoal
        exact hgoal

theorem nextAdmission_lt {held : List StoredBlob} {admission : ℕ}
    (h : nextAdmission held = .ok admission) {blob : StoredBlob} (hblob : blob ∈ held) {a : ℕ}
    (ha : a ∈ blob.lifetime.admission) : a < admission := by
  simp only [nextAdmission, seqRight_eq_bind, bind_ok_iff, exists_unit_iff, pure_ok_iff] at h
  obtain ⟨-, rfl⟩ := h
  have hmem : a ∈ held.filterMap (·.lifetime.admission) := List.mem_filterMap.mpr ⟨blob, hblob, ha⟩
  cases hmax : (held.filterMap (·.lifetime.admission)).max? with
  | none =>
    rw [List.max?_eq_none_iff] at hmax
    rw [hmax] at hmem
    cases hmem
  | some highest =>
    have hle := (List.max?_eq_some_iff.mp hmax).2 a hmem
    rw [Option.elim_some]
    omega

/-- Dropping what is not kept leaves what is kept. -/
theorem dropping_append {kept : List BlobId} {held later : List StoredBlob}
    (hlater : ∀ blob ∈ later, blob.blobId ∈ kept) :
    dropping kept held (held ++ later) = (held ++ later).filter (fun blob => blob.blobId ∈ kept) := by
  apply List.filter_congr
  intro blob hblob
  rw [decide_eq_decide]
  constructor
  · intro hall
    rcases List.mem_append.mp hblob with hblob | hblob
    · exact hall blob hblob rfl
    · exact hlater blob hblob
  · intro hkept dropped _ heq
    rw [heq]
    exact hkept

theorem safe_commit {blobId : BlobId} {selection : Selection}
    {post : Ledger → Except Refusal StoredBlob → Prop}
    (hstack : g.stack = (N.content blobId).routingId :: rest)
    (hread : ((N.content blobId).routingId, selection.held) ∈ g.reads)
    (hbelongs : ∀ blob ∈ selection.held, Belongs N (N.content blobId).routingId blob)
    (hpinned : ∀ record, N.content blobId = .nodeList record →
      Pinned N record.contextId record.governor)
    (herror : ∀ refusal, post g (.error refusal))
    (h : ∀ blob write owed, blob.blobId = blobId →
      write selection.held =
        (selection.held ++ [blob]).filter (fun b => b.blobId ∈ selection.kept) →
      owed ⊆ g.owed ∪ affected N (N.content blobId).routingId →
      affected N (N.content blobId).routingId ⊆ owed →
      post ⟨g.stack, rewrite (N.content blobId).routingId write g.reads, owed⟩ (.ok blob)) :
    (commit N blobId selection).run.Safe N g post := by
  apply safe_fallible_bind
  cases hnew : require (!selection.held.any (fun held => held.blobId = blobId))
    Refusal.alreadyHeld with
  | error refusal => exact herror refusal
  | ok u =>
    apply safe_fallible_bind
    cases hkept : require (blobId ∈ selection.kept) Refusal.notKept with
    | error refusal => exact herror refusal
    | ok u =>
      apply safe_fallible_bind
      cases require (N.quota.holds selection.kept.length) Refusal.quotaFull with
      | error refusal => exact herror refusal
      | ok u =>
        apply safe_fallible_bind
        cases hadmission : nextAdmission selection.held with
        | error refusal => exact herror refusal
        | ok admission =>
          simp only [require_ok_iff, Bool.not_eq_true', List.any_eq_false,
            decide_eq_true_eq] at hnew hkept
          apply safe_fallible_bind
          refine safe_storeBlob hstack hread hnew
            (fun blob hblob a ha => nextAdmission_lt hadmission hblob ha) hpinned
            (fun refusal => herror refusal) ?_
          intro blob write owed hid hwrite hsub hsup haffected
          apply safe_fallible_bind
          have hstack' : (Ledger.mk g.stack (rewrite (N.content blobId).routingId write g.reads)
            owed).stack = (N.content blobId).routingId :: rest := hstack
          apply safe_dropFrom hstack' (fun b hb => (hbelongs b hb).named)
          intro owed' hsub' hsup'
          have hleft : (dropping selection.kept selection.held ∘ write) selection.held =
              (selection.held ++ [blob]).filter (fun b => b.blobId ∈ selection.kept) := by
            rw [Function.comp, hwrite]
            apply dropping_append
            intro b hb
            rw [List.mem_singleton.mp hb, hid]
            exact hkept
          have hgoal := h blob _ owed' hid hleft (by
            intro r hr
            rcases hsup' hr with hr | hr
            · exact hsup hr
            · exact .inr hr) (haffected.trans hsub')
          rw [← rewrite_rewrite] at hgoal
          exact hgoal

/-- After a write at `routing` the reads fix what was read there before it, and what lies
there now. -/
theorem agrees_of_rewrite {view : View} {reads : Reads} {held : List StoredBlob}
    {write : List StoredBlob → List StoredBlob} (honce : Once routing reads)
    (hread : (routing, held) ∈ reads) (h : Agrees view (rewrite routing write reads)) :
    Agrees (Function.update view routing held) reads ∧ view routing = write held := by
  refine ⟨?_, h _ (mem_rewrite hread)⟩
  intro read hmem
  by_cases hrouting : read.1 = routing
  · have hheld : read.2 = held := by
      apply honce _ _ _ hread
      rw [← hrouting]
      exact hmem
    rw [hrouting, Function.update_self, hheld]
  · rw [Function.update_of_ne hrouting]
    exact h read (List.mem_map.mpr ⟨read, hmem, if_neg hrouting⟩)

/-- A reselection pays its routing id. -/
theorem safe_reselect {post : Ledger → Except Refusal Unit → Prop}
    (hrouting : affected N routing = {routing}) (hnested : g.stack ≠ [])
    (h : post ⟨g.stack, [], g.owed \ {routing}⟩ (.ok ())) :
    (reselect routing (selectionAt N routing)).run.Safe N g post := by
  have hsure : (selectionAt N routing).run.Sure N (fun result => ∃ a, result = .ok a ∧ True) :=
    sure_selectionAt routing
  apply Action.safe_bind
  apply safe_fallible_bind
  refine Action.Loads.safe_sure ?_ hsure hnested
  refine ((loads_selectionAt routing).returns.once (fun _ _ h => nomatch h)).mono ?_
  intro reads result hpost hended
  obtain ⟨⟨hown, -, hreturns⟩, honce⟩ := hpost
  cases result with
  | error refusal =>
    obtain ⟨_, herror, -⟩ := hended
    cases herror
  | ok selection =>
    obtain ⟨hread, hbelongs⟩ := hown selection rfl
    apply safe_dropFrom rfl (fun b hb => (hbelongs b hb).named)
    intro owed hsub hsup
    refine ⟨g.stack, rfl, .inr ⟨?_, ?_⟩⟩
    · intro view _ hview
      obtain ⟨hbefore, hleft⟩ := agrees_of_rewrite honce hread hview
      have hselected := hreturns _ hbefore
      rw [read_selectionAt, Function.update_self, Option.some.injEq] at hselected
      apply settled_of_selected hselected
      · exact fun other hother => (Function.update_of_ne hother _ _).symm
      · have hdrop : dropping selection.kept selection.held (selection.held ++ []) =
            (selection.held ++ []).filter (fun blob => blob.blobId ∈ selection.kept) :=
          dropping_append (fun _ h => nomatch h)
        rw [List.append_nil] at hdrop
        exact hleft.trans hdrop
    · have hsame : owed \ {routing} = g.owed \ {routing} := by
        rw [hrouting] at hsup
        ext r
        constructor
        · intro hr
          exact ⟨(hsup hr.1).resolve_right hr.2, hr.2⟩
        · exact fun hr => ⟨hsub hr.1, hr.2⟩
      change post ⟨g.stack, [], owed \ {routing}⟩ (.ok ())
      rw [hsame]
      exact h

end Writes

section Publish
variable {N : Setting} {g : Ledger}

/-- A task that ends holds no lock and owes nothing. -/
def Ends (g : Ledger) (_ : Outcome) : Prop := g.stack = [] ∧ g.owed = ∅

theorem safe_reselectNodeLists {contexts : List String} {stack : List RoutingId}
    {owed : Set RoutingId} {post : Ledger → Except Refusal Unit → Prop} (hnested : stack ≠ [])
    (h : post ⟨stack, [], owed \ {r | ∃ c ∈ contexts, r = .nls c}⟩ (.ok ())) :
    (reselectNodeLists N contexts).run.Safe N ⟨stack, [], owed⟩ post := by
  induction contexts generalizing owed with
  | nil =>
    have hnone : owed \ {r | ∃ c ∈ ([] : List String), r = .nls c} = owed := by simp
    rw [hnone] at h
    exact h
  | cons contextId rest ih =>
    apply safe_fallible_bind
    refine safe_reselect rfl hnested ?_
    apply ih
    have hsame : (owed \ {.nls contextId}) \ {r | ∃ c ∈ rest, r = .nls c} =
        owed \ {r | ∃ c ∈ contextId :: rest, r = .nls c} := by
      ext r
      simp only [Set.mem_sdiff, Set.mem_singleton_iff, Set.mem_ofPred_eq, List.exists_mem_cons_iff,
        not_or, and_assoc]
    dsimp only
    rw [hsame]
    exact h

theorem mem_governed {identifier : Identifier} {contextId : String} :
    contextId ∈ governed N identifier ↔ Pinned N contextId identifier := by
  simp only [governed, List.mem_dedup, List.mem_map, mem_keyOrder, List.mem_filter,
    decide_eq_true_eq, Pinned]
  constructor
  · rintro ⟨pin, ⟨hpin, hgovernor⟩, hcontext⟩
    exact ⟨pin, hpin, hcontext, hgovernor⟩
  · rintro ⟨pin, hpin, hcontext, hgovernor⟩
    exact ⟨pin, ⟨hpin, hgovernor⟩, hcontext⟩

/-- The reselections after a key-event write pay all that the write affects. -/
theorem safe_reselectDependents {identifier : Identifier}
    {post : Ledger → Except Refusal Unit → Prop} (hnested : g.stack ≠ [])
    (howed : g.owed ⊆ affected N (.did identifier))
    (h : post ⟨g.stack, [], ∅⟩ (.ok ())) :
    (reselectDependents N identifier).run.Safe N g post := by
  apply safe_fallible_bind
  refine safe_reselect rfl hnested ?_
  apply safe_fallible_bind
  refine safe_reselect rfl hnested ?_
  apply safe_reselectNodeLists hnested
  have hnone : ((g.owed \ {.svc identifier}) \ {.wcf identifier}) \
      {r | ∃ c ∈ governed N identifier, r = .nls c} = ∅ := by
    rw [Set.eq_empty_iff_forall_notMem]
    rintro r ⟨⟨⟨hr, hsvc⟩, hwcf⟩, hnls⟩
    rcases howed hr with rfl | rfl | ⟨contextId, hpinned, rfl⟩
    · exact hsvc rfl
    · exact hwcf rfl
    · exact hnls ⟨contextId, mem_governed.mpr hpinned, rfl⟩
  dsimp only
  rw [hnone]
  exact h

/-- An admission of another kind than key events pays its own routing id when it commits. -/
theorem pays_admission {blobId : BlobId} {selection : Selection} {reads : Reads}
    {stack : List RoutingId} {owed : Set RoutingId} {blob : StoredBlob}
    {write : List StoredBlob → List StoredBlob}
    (hkind : ∀ frame, N.content blobId ≠ .keyEvents frame)
    (honce : Once (N.content blobId).routingId reads)
    (hread : ((N.content blobId).routingId, selection.held) ∈ reads)
    (hreturns : ∀ view, Agrees view reads →
      (admission N blobId).run.read view = some (.ok selection))
    (hid : blob.blobId = blobId) (hwrite : write selection.held =
      (selection.held ++ [blob]).filter (fun b => b.blobId ∈ selection.kept)) :
    Ledger.Pays N ⟨stack, rewrite (N.content blobId).routingId write reads, owed⟩
      (N.content blobId).routingId := by
  intro view _ hview
  obtain ⟨hbefore, hleft⟩ := agrees_of_rewrite honce hread hview
  have hselected := hreturns _ hbefore
  have hkept : keptOn N (Function.update view (N.content blobId).routingId selection.held)
      (N.content blobId).routingId (selection.held ++ [blob]) = .ok selection.kept := by
    unfold admission at hselected
    cases hcontent : N.content blobId with
    | keyEvents frame => exact absurd hcontent (hkind frame)
    | service record =>
      rw [hcontent] at hselected
      exact (admitServiceRecord_selects hcontent hselected).2 blob hid
    | nodeList record =>
      rw [hcontent] at hselected
      exact (admitNodeList_selects hcontent hselected).2 blob hid
    | conflicts subject statements =>
      rw [hcontent] at hselected
      exact (admitConflicts_selects hcontent hselected).2 blob hid
  apply settled_of_kept hkept
  · exact fun other hother => (Function.update_of_ne hother _ _).symm
  · rw [hleft, hwrite]

/-- Before it gives its own lock back, a publish owes at most the routing id it pays. -/
def Due (N : Setting) (routing : RoutingId) (g : Ledger) (_ : Outcome) : Prop :=
  g.stack = [routing] ∧ (g.owed = ∅ ∨ g.Pays N routing ∧ g.owed ⊆ {routing})

theorem Due.ends {routing : RoutingId} {outcome : Outcome} (h : Due N routing g outcome) :
    (Action.unlock (.retained routing) (.pure outcome)).Safe N g Ends := by
  obtain ⟨hstack, hdue⟩ := h
  refine ⟨[], hstack, ?_⟩
  rcases hdue with hnone | ⟨hpays, hown⟩
  · exact .inl ⟨rfl, hnone⟩
  · exact .inr ⟨hpays, rfl, Set.sdiff_eq_empty.mpr hown⟩

theorem safe_settleDependents {blobId : BlobId} {stored : StoredBlob}
    (hstack : g.stack = [(N.content blobId).routingId])
    (howed : g.owed ⊆ affected N (N.content blobId).routingId)
    (hpays : (∀ frame, N.content blobId ≠ .keyEvents frame) → g.Pays N (N.content blobId).routingId) :
    (settleDependents N blobId stored).Safe N g (Due N (N.content blobId).routingId) := by
  unfold settleDependents
  cases hcontent : N.content blobId with
  | keyEvents frame =>
    rw [hcontent] at hstack howed
    apply Action.safe_bind
    have hnested : g.stack ≠ [] := by
      rw [hstack]
      exact List.cons_ne_nil _ _
    exact safe_reselectDependents hnested howed ⟨hstack, .inl rfl⟩
  | service record =>
    rw [hcontent] at hstack howed hpays
    exact ⟨hstack, .inr ⟨hpays (fun _ h => nomatch h), howed⟩⟩
  | nodeList record =>
    rw [hcontent] at hstack howed hpays
    exact ⟨hstack, .inr ⟨hpays (fun _ h => nomatch h), howed⟩⟩
  | conflicts subject statements =>
    rw [hcontent] at hstack howed hpays
    exact ⟨hstack, .inr ⟨hpays (fun _ h => nomatch h), howed⟩⟩

/-- A publish is safe from the moment it begins. -/
theorem safe_admit (blobId : BlobId) : (admit_ N blobId).Safe N ⟨[], [], ∅⟩ Ends := by
  apply Action.safe_bind
  apply Action.safe_bind
  apply safe_fallible_bind
  apply Action.Loads.safe
  refine ((loads_admission blobId).returns.once (fun _ _ h => nomatch h)).mono ?_
  intro reads result hpost
  obtain ⟨⟨⟨hown, hpinned⟩, -, hreturns⟩, honce⟩ := hpost
  cases result with
  | error refusal => exact Due.ends ⟨rfl, .inl rfl⟩
  | ok selection =>
    obtain ⟨hread, hbelongs⟩ := hown selection rfl
    refine safe_commit rfl hread hbelongs (hpinned selection rfl) ?_ ?_
    · exact fun refusal => Due.ends ⟨rfl, .inl rfl⟩
    · intro blob write owed hid hwrite hsup _
      refine Action.Safe.mono (safe_settleDependents rfl ?_ ?_) (fun g outcome h => h.ends)
      · simpa using hsup
      · intro hkind
        exact pays_admission hkind honce hread hreturns hid hwrite

end Publish

end ScpCore.Records
