import ScpCore.KelRelation
import ScpCore.KelFrame
import ScpCore.NodeRecords

/-! A node reads its log back by replaying the frames it stores. While the
retention bounds have room for every chain that arrives, no frame is ever dropped,
and the replay is the log the last accepted publish left. Once the bounds evict a
chain whose events other frames share, the frames that stay need not replay. -/

namespace ScpCore.Node
open Kel

section Replay
variable {C : Crypto} {held held' : HeldLog} {identifier : Identifier} {xs ys : List StoredBlob}

/-- What a cache may hold: nothing, or a replay of the first stored frames. -/
def Cached (C : Crypto) (identifier : Identifier) (stored : List StoredBlob)
    (entry : Option HeldLog) : Prop :=
  ∀ log ∈ entry, ∃ n ≤ stored.length,
    replayFrom C (.empty identifier) (stored.take n) = .ok log

theorem replayFrom_append : replayFrom C held (xs ++ ys) = .ok held' ↔
    ∃ middle, replayFrom C held xs = .ok middle ∧ replayFrom C middle ys = .ok held' := by
  induction xs generalizing held with
  | nil => simp [replayFrom]
  | cons blob xs ih =>
    simp only [List.cons_append, replayFrom, bind_ok_iff, ih]
    constructor
    · intro h
      obtain ⟨next, hnext, middle, hmiddle, h⟩ := h
      exact ⟨middle, ⟨next, hnext, hmiddle⟩, h⟩
    · intro h
      obtain ⟨middle, ⟨next, hnext, hmiddle⟩, h⟩ := h
      exact ⟨next, hnext, middle, hmiddle, h⟩

/-- A frame stands for the record it was admitted from. -/
def Stands (frame : HeldFrame) (blob : StoredBlob) : Prop :=
  frame.blobId = blob.blobId ∧ blob.lifetime.admission = some frame.admission

theorem admitFrame_ok_iff {admission : ℕ} {blobId : BlobId} {frame : KeyEventFrame}
    {outcome : HoldOutcome} :
    held.admitFrame C admission blobId frame = .ok (outcome, held') ↔
      (held.log.admit_ C frame.units).1 = .ok outcome ∧
        held' = ⟨(held.log.admit_ C frame.units).2,
          held.frames ++ [⟨admission, blobId, frame.events.map (·.digest)⟩]⟩ := by
  unfold HeldLog.admitFrame
  dsimp only
  cases (held.log.admit_ C frame.units).1 with
  | error refusal => simp [Except.map]
  | ok outcome' => simp [Except.map, eq_comm]

theorem admitStored_frames {blob : StoredBlob} (h : admitStored C held blob = .ok held') :
    ∃ frame, held'.frames = held.frames ++ [frame] ∧ Stands frame blob := by
  simp only [admitStored, bind_ok_iff, mapError_ok_iff, okOr_ok_iff, Prod.exists, pure_ok_iff] at h
  obtain ⟨frame, -, admission, hadmission, outcome, next, hnext, rfl⟩ := h
  rw [admitFrame_ok_iff] at hnext
  rw [hnext.2]
  exact ⟨_, rfl, rfl, hadmission⟩

/-- A replay adds one frame for each record, in order. -/
theorem replayFrom_frames (h : replayFrom C held xs = .ok held') :
    ∃ frames, held'.frames = held.frames ++ frames ∧ List.Forall₂ Stands frames xs := by
  induction xs generalizing held with
  | nil =>
    rw [replayFrom, Except.ok.injEq] at h
    rw [h]
    exact ⟨[], by simp, .nil⟩
  | cons blob xs ih =>
    rw [replayFrom, bind_ok_iff] at h
    obtain ⟨next, hnext, h⟩ := h
    obtain ⟨frame, hframe, hstands⟩ := admitStored_frames hnext
    obtain ⟨frames, hframes, hall⟩ := ih h
    refine ⟨frame :: frames, ?_, .cons hstands hall⟩
    rw [hframes, hframe, List.append_assoc, List.singleton_append]

/-- The frames of a replay from nothing are those of the records. -/
theorem replay_stands (h : replayFrom C (.empty identifier) xs = .ok held) :
    List.Forall₂ Stands held.frames xs := by
  obtain ⟨frames, hframes, hall⟩ := replayFrom_frames h
  rw [hframes]
  exact hall

theorem stands_blobIds {frames : List HeldFrame} (h : List.Forall₂ Stands frames xs) :
    frames.map (·.blobId) = xs.map (·.blobId) := by
  induction h with
  | nil => rfl
  | cons hstands _ ih => rw [List.map_cons, List.map_cons, hstands.1, ih]

theorem isPrefixOf_of_stands (h : List.Forall₂ Stands held.frames xs) (ys : List StoredBlob) :
    held.isPrefixOf (xs ++ ys) = true := by
  rw [HeldLog.isPrefixOf, Bool.and_eq_true, decide_eq_true_eq, List.length_append, h.length_eq]
  refine ⟨Nat.le_add_right _ _, ?_⟩
  generalize held.frames = frames at h
  induction h with
  | nil => simp
  | cons hstands _ ih =>
    rw [List.cons_append, List.zip_cons_cons, List.all_cons, ih, Bool.and_true]
    simp [hstands.1, hstands.2]

/-- A longer store may cache what a shorter one did. -/
theorem Cached.concat {stored : List StoredBlob} {entry : Option HeldLog}
    (h : Cached C identifier stored entry) (blob : StoredBlob) :
    Cached C identifier (stored ++ [blob]) entry := by
  intro log hlog
  obtain ⟨n, hn, hreplay⟩ := h log hlog
  refine ⟨n, ?_, ?_⟩
  · rw [List.length_append]
    omega
  · rw [List.take_append_of_le_length hn]
    exact hreplay

/-- A replay of every stored frame may be put. -/
theorem Cached.put {stored : List StoredBlob} {entry : Option HeldLog}
    (h : Cached C identifier stored entry)
    (hheld : replayFrom C (.empty identifier) stored = .ok held) :
    Cached C identifier stored (cachePut entry held) := by
  have hwhole : Cached C identifier stored (some held) := by
    intro log hlog
    rw [← Option.some.inj hlog]
    exact ⟨stored.length, le_rfl, by rw [List.take_length]; exact hheld⟩
  unfold cachePut
  cases entry with
  | none => exact hwhole
  | some log =>
    rw [Option.elim_some]
    split_ifs
    · exact hwhole
    · exact h

/-- Where the stored frames replay, every cache gives the replay. -/
theorem heldLogFrom_ok {stored : List StoredBlob} {entry : Option HeldLog}
    (hcached : Cached C identifier stored entry)
    (h : replayFrom C (.empty identifier) stored = .ok held) :
    ∃ logs, heldLogFrom C entry identifier stored = .ok (held, logs) ∧
      Cached C identifier stored logs := by
  -- Either way the log starts as a replay of the first `n` records.
  obtain ⟨n, hn, hstart⟩ : ∃ n ≤ stored.length, replayFrom C (.empty identifier) (stored.take n) =
      .ok ((entry.filter (·.isPrefixOf stored)).getD (.empty identifier)) := by
    cases entry with
    | none => exact ⟨0, Nat.zero_le _, rfl⟩
    | some log =>
      obtain ⟨n, hn, hlog⟩ := hcached log rfl
      have hprefix := isPrefixOf_of_stands (replay_stands hlog) (stored.drop n)
      rw [List.take_append_drop] at hprefix
      exact ⟨n, hn, by rw [Option.filter_some, hprefix, if_pos rfl, Option.getD_some, hlog]⟩
  have hlen := (replay_stands hstart).length_eq
  rw [List.length_take, min_eq_left hn] at hlen
  have hsplit := h
  rw [← List.take_append_drop n stored, replayFrom_append] at hsplit
  obtain ⟨middle, hmiddle, hrest⟩ := hsplit
  obtain rfl := Except.ok.inj (hstart.symm.trans hmiddle)
  unfold heldLogFrom
  dsimp only
  rw [hlen]
  split_ifs with hall
  · rw [hall, List.drop_length] at hrest
    cases hrest
    exact ⟨entry, rfl, hcached⟩
  · rw [hrest]
    exact ⟨_, rfl, hcached.put h⟩

end Replay

section Storage
variable {storage : Storage} {routing : RoutingId} {blob : StoredBlob}

theorem orderedInsert_concat {x y : StoredBlob} (h : x.key ≤ y.key) (xs : List StoredBlob) :
    (xs ++ [y]).orderedInsert (fun a b => a.key ≤ b.key) x =
      xs.orderedInsert (fun a b => a.key ≤ b.key) x ++ [y] := by
  induction xs with
  | nil => simp [h]
  | cons z xs ih =>
    by_cases hz : x.key ≤ z.key
    · simp [hz]
    · simp [hz, ih]

/-- A record past every other stands last. -/
theorem insertionSort_concat {xs : List StoredBlob} (h : ∀ x ∈ xs, x.key ≤ blob.key) :
    (xs ++ [blob]).insertionSort (fun a b => a.key ≤ b.key) =
      xs.insertionSort (fun a b => a.key ≤ b.key) ++ [blob] := by
  induction xs with
  | nil => rfl
  | cons x xs ih =>
    rw [List.cons_append, List.insertionSort_cons, List.insertionSort_cons,
      ih (fun y hy => h y (List.mem_cons_of_mem _ hy)),
      orderedInsert_concat (h x List.mem_cons_self)]

theorem mem_loadRetained : blob ∈ loadRetained storage routing ↔
    blob ∈ storage ∧ blob.routingId = routing ∧ blob.lifetime.isRetained = true := by
  rw [loadRetained, List.mem_insertionSort, Storage.retainedAt, List.mem_filter, Bool.and_eq_true,
    decide_eq_true_eq]

/-- The next counter passes every counter held. -/
theorem nextAdmission_lt {xs : List StoredBlob} {admission : ℕ}
    (h : nextAdmission xs = .ok admission) {x : StoredBlob} (hx : x ∈ xs) {a : ℕ}
    (ha : x.lifetime.admission = some a) : a < admission := by
  simp only [nextAdmission, seqRight_eq_bind, bind_ok_iff, exists_unit_iff, pure_ok_iff] at h
  obtain ⟨-, rfl⟩ := h
  have hmem : a ∈ xs.filterMap (·.lifetime.admission) := List.mem_filterMap.mpr ⟨x, hx, ha⟩
  cases hmax : (xs.filterMap (·.lifetime.admission)).max? with
  | none =>
    rw [List.max?_eq_none_iff] at hmax
    rw [hmax] at hmem
    cases hmem
  | some highest =>
    have hle := (List.max?_eq_some_iff.mp hmax).2 a hmem
    rw [Option.elim_some]
    omega

/-- Storing a record of the next counter adds it last; a TTL copy of it elsewhere goes. -/
theorem loadRetained_commit {quota : QuotaLimit} {publish : RetainedPublish} {selection : Selection}
    {stored : StoredBlob} {storage' : Storage} (hrouting : publish.routingId = routing)
    (hheld : selection.held = loadRetained storage routing)
    (hkept : ∀ held ∈ selection.held, held.blobId ∈ selection.kept)
    (h : commit quota storage publish selection = .ok (stored, storage')) :
    ∃ admission, nextAdmission selection.held = .ok admission ∧
      stored = ⟨routing, publish.blobId, .retained admission, publish.blob⟩ ∧
      loadRetained storage' routing = loadRetained storage routing ++ [stored] := by
  simp only [commit, bind_ok_iff, exists_unit_iff, require_ok_iff, pure_ok_iff, Prod.mk.injEq] at h
  obtain ⟨hnew, -, -, admission, hadmission, -, rfl, rfl⟩ := h
  rw [hrouting]
  refine ⟨admission, hadmission, rfl, ?_⟩
  have hdrop : selection.held.filter (fun held => held.blobId ∉ selection.kept) = [] := by
    rw [List.filter_eq_nil_iff]
    intro held hmem
    simpa using hkept held hmem
  have hsame : Storage.retainedAt (if (storage.get publish.blobId).isSome then
      storage.delete publish.blobId else storage) routing = storage.retainedAt routing := by
    split_ifs
    · -- No record of the routing id has the blob id of the copy that goes.
      unfold Storage.retainedAt Storage.delete
      rw [List.filter_filter]
      apply List.filter_congr
      intro b hb
      by_cases hat : b.routingId = routing ∧ b.lifetime.isRetained = true
      · have hne : b.blobId ≠ publish.blobId := by
          intro heq
          have hmem : b ∈ selection.held := by
            rw [hheld, mem_loadRetained]
            exact ⟨hb, hat⟩
          rw [Bool.not_eq_true', List.any_eq_false] at hnew
          exact hnew b hmem (by simpa using heq)
        simp [hat, hne]
      · simp only [not_and, Bool.not_eq_true] at hat
        by_cases hr : b.routingId = routing
        · simp [hat hr]
        · simp [hr]
    · rfl
  rw [dropUnselected, hdrop, List.foldl_nil, loadRetained, Storage.retainedAt, Storage.store,
    List.filter_append, ← Storage.retainedAt, hsame,
    List.filter_eq_self.mpr (by simp [StoredLifetime.isRetained, StoredLifetime.admission])]
  apply insertionSort_concat
  intro x hx
  have hmem : x ∈ selection.held := by
    rw [hheld, loadRetained, List.mem_insertionSort]
    exact hx
  rw [hheld, mem_loadRetained] at hmem
  obtain ⟨a, ha⟩ := Option.isSome_iff_exists.mp hmem.2.2
  have hlt := nextAdmission_lt hadmission (by rwa [hheld, mem_loadRetained]) ha
  -- The counters differ, so the keys compare by them.
  rw [StoredBlob.key, StoredBlob.key, ha, Prod.Lex.toLex_le_toLex]
  exact .inl hlt

end Storage

/-- The log a node keeps: what its last accepted publish produced, or none yet. -/
def keptLog (identifier : Identifier) (last : Option HeldLog) : HeldLog :=
  last.getD (.empty identifier)

/-- A record of the identifier, published at its routing id. The units a node reads
lie in `seen`, and the held chains and a frame's units lie in memory. -/
structure PublishOf (C : Crypto) (seen : Set Bytes) (identifier : Identifier) (routing : RoutingId)
    (last : Option HeldLog) (publish : RetainedPublish) : Prop where
  placed : publish.routingId = routing
  named : ∀ frame, decodeKeyEventFrame C publish.blob = .ok frame → frame.identifier = identifier
  read : ∀ frame, decodeKeyEventFrame C publish.blob = .ok frame → preimagesOf frame.units ⊆ seen
  room : ∀ frame, decodeKeyEventFrame C publish.blob = .ok frame →
    ∀ chain ∈ (keptLog identifier last).retained, chain.len+frame.units.length ≤ vecMax

/-- The bounds have room for the chain the published frame leads to. -/
def Fits (C : Crypto) (identifier : Identifier) (last : Option HeldLog) (publish : RetainedPublish) :
    Prop :=
  ∀ frame chain, decodeKeyEventFrame C publish.blob = .ok frame →
    (keptLog identifier last).log.frameChain C frame.units = .ok chain →
    ∀ s ∈ (keptLog identifier last).log.holder.set, s.Room chain

section Run
variable (C : Crypto) (seen : Set Bytes) (quota : QuotaLimit) (identifier : Identifier)
  (routing : RoutingId)

/-- The states of a node, each with the log its last accepted publish produced. Between
publishes the cache entry may go or become a replay of stored frames, and the store may
change elsewhere. -/
inductive Run (meets : Option HeldLog → RetainedPublish → Prop) :
    NodePublicRecords → Option HeldLog → Prop
  | start {storage : Storage} (none : loadRetained storage routing = []) :
      Run meets ⟨storage, .none⟩ .none
  | publish {st : NodePublicRecords} {last : Option HeldLog} {publish : RetainedPublish}
      (before : Run meets st last) (valid : PublishOf C seen identifier routing last publish)
      (met : meets last publish) :
      Run meets (admit_ C quota st publish).2
        (((admit_ C quota st publish).1.toOption.map Prod.snd).or last)
  | caches {st : NodePublicRecords} {last entry : Option HeldLog} (before : Run meets st last)
      (cached : Cached C identifier (loadRetained st.storage routing) entry) :
      Run meets { st with logs := entry } last
  | elsewhere {st : NodePublicRecords} {last : Option HeldLog} {storage : Storage}
      (before : Run meets st last)
      (same : storage.retainedAt routing = st.storage.retainedAt routing) :
      Run meets { st with storage } last

/-- The node reads back the log it keeps: whatever the cache holds, the stored frames give
one log, with the accepted head of the log the last accepted publish produced, and the
selection over it keeps every stored frame. -/
def ReadsBack (st : NodePublicRecords) (last : Option HeldLog) : Prop :=
  ∃ held, (∀ entry, entry = st.logs ∨ Cached C identifier (loadRetained st.storage routing) entry →
      ∃ logs, heldLogFrom C entry identifier (loadRetained st.storage routing) = .ok (held, logs)) ∧
    (∀ produced ∈ last, held.acceptedHead = produced.acceptedHead) ∧
    ∀ blob ∈ loadRetained st.storage routing,
      blob.blobId ∈ selectKeyEvents held.retained held.frames

/-- A frame that carries an event of a retained chain. -/
def Carries (held : HeldLog) (frame : HeldFrame) : Prop :=
  ∃ digest ∈ frame.digests, ∃ chain ∈ held.retained, digest ∈ chain.eventDigests

/-- What holds of the log a node keeps while nothing was ever evicted: the stored frames
replay to it, and each carries an event it retains. -/
structure Intact (st : NodePublicRecords) (last : Option HeldLog) (held : HeldLog) : Prop where
  kept : keptLog identifier last = held
  replays : replayFrom C (.empty identifier) (loadRetained st.storage routing) = .ok held
  admitted : Admitted C seen identifier held.log
  led : ∀ s ∈ held.log.holder.set, s.Led (bookOf C seen identifier)
  cached : Cached C identifier (loadRetained st.storage routing) st.logs
  carried : ∀ frame ∈ held.frames, Carries held frame

end Run

section Intact
variable {C : Crypto} {seen : Set Bytes} {quota : QuotaLimit} {identifier : Identifier}
  {routing : RoutingId} {st : NodePublicRecords} {last : Option HeldLog} {held : HeldLog}

/-- The selection keeps the records whose frames carry a retained event. -/
theorem mem_selectKeyEvents {id : BlobId} : id ∈ selectKeyEvents held.retained held.frames ↔
    ∃ frame ∈ held.frames, Carries held frame ∧ frame.blobId = id := by
  simp only [selectKeyEvents, List.mem_dedup, List.mem_map, List.mem_filter, List.any_eq_true,
    decide_eq_true_eq, List.mem_flatMap, Carries, and_assoc]

theorem mem_selectKeyEvents_of_stands {frames : List HeldFrame} {stored : List StoredBlob}
    (hstands : List.Forall₂ Stands frames stored) (hsub : frames ⊆ held.frames)
    (hcarried : ∀ frame ∈ held.frames, Carries held frame) {blob : StoredBlob}
    (hblob : blob ∈ stored) : blob.blobId ∈ selectKeyEvents held.retained held.frames := by
  have hmem : blob.blobId ∈ frames.map (·.blobId) := by
    rw [stands_blobIds hstands]
    exact List.mem_map.mpr ⟨blob, hblob, rfl⟩
  obtain ⟨frame, hframe, hid⟩ := List.mem_map.mp hmem
  exact mem_selectKeyEvents.mpr ⟨frame, hsub hframe, hcarried frame (hsub hframe), hid⟩

theorem Intact.readsBack (h : Intact C seen identifier routing st last held) :
    ReadsBack C identifier routing st last := by
  refine ⟨held, ?_, ?_, ?_⟩
  · intro entry hentry
    have hcached : Cached C identifier (loadRetained st.storage routing) entry := by
      rcases hentry with rfl | hentry
      · exact h.cached
      · exact hentry
    obtain ⟨logs, hlogs, -⟩ := heldLogFrom_ok hcached h.replays
    exact ⟨logs, hlogs⟩
  · intro produced hproduced
    rw [← h.kept, keptLog, hproduced, Option.getD_some]
  · intro blob hblob
    exact mem_selectKeyEvents_of_stands (replay_stands h.replays) (List.Subset.refl _) h.carried hblob

/-- What a frame the log accepts with room leaves: every frame carries a retained event. -/
theorem carries_admitted (hcf : CollisionFree C seen)
    (hlog : Admitted C seen identifier held.log)
    (hled : ∀ s ∈ held.log.holder.set, s.Led (bookOf C seen identifier))
    (hcarried : ∀ frame ∈ held.frames, Carries held frame) {bytes : Bytes} {frame : KeyEventFrame}
    (hdecode : decodeKeyEventFrame C bytes = .ok frame) (hseen : preimagesOf frame.units ⊆ seen)
    (hroom : ∀ c ∈ held.retained, c.len+frame.units.length ≤ vecMax)
    (hfits : ∀ chain, held.log.frameChain C frame.units = .ok chain →
      ∀ s ∈ held.log.holder.set, s.Room chain) {admission : ℕ} {blobId : BlobId}
    {outcome : HoldOutcome} {held' : HeldLog}
    (hok : held.admitFrame C admission blobId frame = .ok (outcome, held'))
    (hrefused : isRefused outcome = false) :
    Admitted C seen identifier held'.log ∧
      (∀ s ∈ held'.log.holder.set, s.Led (bookOf C seen identifier)) ∧
      ∀ frame ∈ held'.frames, Carries held' frame := by
  obtain ⟨hframe, rfl⟩ := admitFrame_ok_iff.mp hok
  obtain ⟨-, hmax, hsound⟩ := decodeKeyEventFrame_sound hdecode
  have hsize : frame.units.length ≤ vecMax := by
    rw [KeyEventFrame.units, List.length_map]
    exact hmax.trans (by decide)
  -- An outcome other than a refusal keeps the frame.
  have hallowed : ∀ rank, outcome ≠ .refused rank := by
    intro rank heq
    rw [heq] at hrefused
    cases hrefused
  obtain ⟨hled', hkept, first, hfirst, read, hread, d, hd, hmem⟩ :=
    admit_keeps hcf hlog hled hseen hsize hroom hfits hframe hallowed
  refine ⟨.admits hlog hseen hsize hroom, hled', ?_⟩
  intro f hf
  rcases List.mem_append.mp hf with hf | hf
  · obtain ⟨digest, hdigest, c, hc, hmemc⟩ := hcarried f hf
    obtain ⟨e, he, hprefix⟩ := hkept c hc
    exact ⟨digest, hdigest, e, he, hprefix.subset hmemc⟩
  · -- The arriving frame carries its own first event.
    rw [List.mem_singleton.mp hf]
    rw [KeyEventFrame.units, List.head?_map, Option.mem_def, Option.map_eq_some_iff] at hfirst
    obtain ⟨e, he, rfl⟩ := hfirst
    have hevent := List.mem_of_head? he
    obtain ⟨read', hread', hdigest⟩ := hsound e hevent
    obtain rfl : read = read' := EventUnit.read.inj (hread.symm.trans hread')
    refine ⟨e.digest, List.mem_map.mpr ⟨e, hevent, rfl⟩, d, hd, ?_⟩
    rw [hdigest]
    exact hmem

/-- A publish with room leaves the node intact. -/
theorem Intact.publish (hcf : CollisionFree C seen) {publish : RetainedPublish}
    (h : Intact C seen identifier routing st last held)
    (hvalid : PublishOf C seen identifier routing last publish)
    (hfits : Fits C identifier last publish) :
    ∃ held', Intact C seen identifier routing (admit_ C quota st publish).2
      (((admit_ C quota st publish).1.toOption.map Prod.snd).or last) held' := by
  have hkeep {logs : Option HeldLog}
      (hlogs : Cached C identifier (loadRetained st.storage routing) logs) :
      Intact C seen identifier routing { st with logs } last held :=
    ⟨h.kept, h.replays, h.admitted, h.led, hlogs, h.carried⟩
  have hroom := hvalid.room
  rw [h.kept] at hroom
  rw [Fits, h.kept] at hfits
  unfold admit_ admitKeyEvents
  cases hdecode : decodeKeyEventFrame C publish.blob with
  | error error => exact ⟨held, hkeep h.cached⟩
  | ok frame =>
    obtain ⟨logs, hlogs, hcached⟩ := heldLogFrom_ok h.cached h.replays
    dsimp only
    rw [hvalid.placed, hvalid.named frame hdecode, hlogs]
    dsimp only
    cases hselect : selectArriving C held (loadRetained st.storage routing) publish.blobId frame with
    | error refusal => exact ⟨held, hkeep hcached⟩
    | ok r =>
      obtain ⟨held', selection⟩ := r
      dsimp only
      cases hcommit : commit quota st.storage publish selection with
      | error refusal => exact ⟨held, hkeep hcached⟩
      | ok r =>
        obtain ⟨stored, storage⟩ := r
        simp only [selectArriving, bind_ok_iff, mapError_ok_iff, exists_unit_iff, require_ok_iff,
          Prod.exists, pure_ok_iff, Prod.mk.injEq] at hselect
        obtain ⟨admission, hadmission, outcome, held', hframe, hrefused, rfl, rfl⟩ := hselect
        obtain ⟨hadmitted, hled, hcarried⟩ := carries_admitted hcf h.admitted h.led h.carried hdecode
          (hvalid.read frame hdecode) (hroom frame hdecode)
          (fun chain => hfits frame chain hdecode) hframe (by simpa using hrefused)
        obtain ⟨-, hheld'⟩ := admitFrame_ok_iff.mp hframe
        have hkept : ∀ blob ∈ loadRetained st.storage routing,
            blob.blobId ∈ selectKeyEvents held'.retained held'.frames := by
          intro blob hblob
          apply mem_selectKeyEvents_of_stands (replay_stands h.replays) _ hcarried hblob
          rw [hheld']
          exact List.subset_append_left _ _
        obtain ⟨admission', hadmission', rfl, hload⟩ :=
          loadRetained_commit hvalid.placed rfl hkept hcommit
        obtain rfl : admission = admission' := Except.ok.inj (hadmission.symm.trans hadmission')
        -- The record just stored replays onto the log it was admitted to.
        have hreplays : replayFrom C (.empty identifier) (loadRetained storage routing) =
            .ok held' := by
          rw [hload, replayFrom_append]
          refine ⟨held, h.replays, ?_⟩
          simp only [replayFrom, admitStored, bind_ok_iff, mapError_ok_iff, okOr_ok_iff, Prod.exists,
            pure_ok_iff]
          exact ⟨held', ⟨frame, hdecode, admission, rfl, outcome, held', hframe, rfl⟩, rfl⟩
        refine ⟨held', rfl, hreplays, hadmitted, hled, ?_, hcarried⟩
        · have hlonger : Cached C identifier (loadRetained storage routing) logs := by
            rw [hload]
            exact hcached.concat _
          dsimp only
          split_ifs
          · exact hlonger.put hreplays
          · exact hlonger

/-- Along every run whose publishes have room the node stays intact. -/
theorem Run.intact (hcf : CollisionFree C seen)
    (h : Run C seen quota identifier routing (Fits C identifier) st last) :
    ∃ held, Intact C seen identifier routing st last held := by
  induction h with
  | start hnone =>
    refine ⟨.empty identifier, rfl, ?_, .new, ?_, ?_, ?_⟩
    · rw [hnone]
      rfl
    · simp [HeldLog.empty, RetainedLog.new, AcceptedChainHolder.new, AcceptedChainHolder.withBounds]
    · intro log hlog
      cases hlog
    · simp [HeldLog.empty]
  | publish _ hvalid hfits ih =>
    obtain ⟨held, hintact⟩ := ih
    exact hintact.publish hcf hvalid hfits
  | caches _ hcached ih =>
    obtain ⟨held, hintact⟩ := ih
    exact ⟨held, hintact.kept, hintact.replays, hintact.admitted, hintact.led, hcached,
      hintact.carried⟩
  | @elsewhere st last storage _ hsame ih =>
    obtain ⟨held, hintact⟩ := ih
    have hload : loadRetained storage routing = loadRetained st.storage routing := by
      rw [loadRetained, loadRetained, hsame]
    refine ⟨held, hintact.kept, ?_, hintact.admitted, hintact.led, ?_, hintact.carried⟩
    · rw [hload]
      exact hintact.replays
    · rw [hload]
      exact hintact.cached

end Intact

/-- In every run whose publishes the bounds have room for, the node reads back the log it
keeps. -/
theorem run_readsBack (C : Crypto) (seen : Set Bytes) (quota : QuotaLimit) (identifier : Identifier)
    (routing : RoutingId) (hcf : CollisionFree C seen) (st : NodePublicRecords)
    (last : Option HeldLog)
    (h : Run C seen quota identifier routing (Fits C identifier) st last) :
    ReadsBack C identifier routing st last := by
  obtain ⟨held, hintact⟩ := h.intact hcf
  exact hintact.readsBack

-- Nine recoveries contend for the sample identifier. The ninth evicts the key state that
-- the first frame carries beside the inception, so a later frame brings the key state again;
-- replayed, the first frame already holds it.

section Sample

def sampleShift : EventPreimage := sampleStateAfter sampleInception 600

/-- A recovery of the sample inception that declares its root lost. -/
def sampleLostTo (root : Key) : EventPreimage :=
  { sampleRecovery root 5 with
    standingRoot := some .lost
    signerGroups := [⟨[0], [.raw]⟩, ⟨[0], [.raw]⟩] }

/-- A co-signed recovery over the key state. -/
def sampleLate : EventPreimage :=
  { sampleRecovery 4 5 with
    sequence := 2
    predecessorDigest := eventDigestOf sampleCrypto (fieldsOut sampleShift) }

/-- A record frame of the sample identifier, its events from `first` on. -/
def sampleFrame (first : ℕ) (units : List Bytes) : Bytes :=
  [keyEventFrameVersion] ++ beBytes 32 sampleIdentifier.toNat ++ beBytes 8 first ++
    beBytes 8 (first+units.length-1) ++ beBytes 4 units.length ++ units.flatten

def sampleLostUnit (n : ℕ) : Bytes := sampleUnit (sampleLostTo (BitVec.ofNat 264 (n+10))) 2

def sampleBlobs : List Bytes :=
  sampleFrame 0 [sampleUnit sampleInception 1, sampleUnit sampleShift 1] ::
    (List.range 9).map (fun n => sampleFrame 1 [sampleLostUnit n]) ++
    [sampleFrame 1 [sampleUnit sampleShift 1, sampleUnit sampleLate 3]]

def sampleRecordUnits : List Bytes :=
  sampleUnit sampleInception 1 :: sampleUnit sampleShift 1 :: sampleUnit sampleLate 3 ::
    (List.range 9).map sampleLostUnit

def samplePublishes : List RetainedPublish :=
  sampleBlobs.zipIdx.map (fun t => ⟨7, BitVec.ofNat 256 t.2, t.1⟩)

/-- The run of the publishes, as long as each passes `check`. -/
def sampleRun (check : Option HeldLog → RetainedPublish → Bool) :
    List RetainedPublish → NodePublicRecords → Option HeldLog →
      Option (NodePublicRecords × Option HeldLog)
  | [], st, last => some (st, last)
  | publish :: rest, st, last =>
    if check last publish then
      let admitted := admit_ sampleCrypto .unbounded st publish
      sampleRun check rest admitted.2 ((admitted.1.toOption.map Prod.snd).or last)
    else none

theorem sampleRun_run {check : Option HeldLog → RetainedPublish → Bool}
    {meets : Option HeldLog → RetainedPublish → Prop}
    (hcheck : ∀ last publish, check last publish = true →
      PublishOf sampleCrypto (preimagesOf sampleRecordUnits) sampleIdentifier 7 last publish ∧
        meets last publish)
    {publishes : List RetainedPublish} {st st' : NodePublicRecords} {last last' : Option HeldLog}
    (h : Run sampleCrypto (preimagesOf sampleRecordUnits) .unbounded sampleIdentifier 7 meets st last)
    (hrun : sampleRun check publishes st last = some (st', last')) :
    Run sampleCrypto (preimagesOf sampleRecordUnits) .unbounded sampleIdentifier 7 meets st' last' := by
  induction publishes generalizing st last with
  | nil =>
    obtain ⟨rfl, rfl⟩ := Prod.mk.inj (Option.some.inj hrun)
    exact h
  | cons publish rest ih =>
    rw [sampleRun] at hrun
    split_ifs at hrun with hpass
    obtain ⟨hvalid, hmeets⟩ := hcheck last publish hpass
    exact ih (h.publish hvalid hmeets) hrun

/-- A publish of the sample records, with the kept chains in memory. -/
def sampleValid (last : Option HeldLog) (publish : RetainedPublish) : Bool :=
  publish.routingId = 7 && match decodeKeyEventFrame sampleCrypto publish.blob with
    | .error _ => true
    | .ok frame => frame.identifier = sampleIdentifier &&
      frame.units.all (fun unit => unit ∈ sampleRecordUnits) &&
      (keptLog sampleIdentifier last).retained.all (fun c => c.len+frame.units.length ≤ vecMax)

theorem sampleValid_publishOf {last : Option HeldLog} {publish : RetainedPublish}
    (h : sampleValid last publish = true) :
    PublishOf sampleCrypto (preimagesOf sampleRecordUnits) sampleIdentifier 7 last publish := by
  rw [sampleValid, Bool.and_eq_true, decide_eq_true_eq] at h
  obtain ⟨hplaced, h⟩ := h
  have hframe : ∀ frame, decodeKeyEventFrame sampleCrypto publish.blob = .ok frame →
      frame.identifier = sampleIdentifier ∧ (∀ unit ∈ frame.units, unit ∈ sampleRecordUnits) ∧
      ∀ c ∈ (keptLog sampleIdentifier last).retained, c.len+frame.units.length ≤ vecMax := by
    intro frame hdecode
    rw [hdecode] at h
    simp only [Bool.and_eq_true, decide_eq_true_eq, List.all_eq_true] at h
    exact ⟨h.1.1, h.1.2, h.2⟩
  refine ⟨hplaced, fun frame hd => (hframe frame hd).1, ?_, fun frame hd => (hframe frame hd).2.2⟩
  intro frame hd signed hsigned
  obtain ⟨unit, hunit, fields, hfields, rfl⟩ := hsigned
  exact ⟨unit, (hframe frame hd).2.1 unit hunit, fields, hfields, rfl⟩

/-- The publish has room by a count that does not ask which chain leads. -/
def sampleFits (last : Option HeldLog) (publish : RetainedPublish) : Bool :=
  match decodeKeyEventFrame sampleCrypto publish.blob with
  | .error _ => true
  | .ok frame => match (keptLog sampleIdentifier last).log.frameChain sampleCrypto frame.units with
    | .error _ => true
    | .ok chain => (keptLog sampleIdentifier last).log.holder.set.all (fun s =>
        (s.arrived chain).length ≤ s.bounds.suffixes+1 &&
        (s.arrived chain).all (fun w => unionLen ((s.arrived chain).flatMap (fun u =>
          u.2.unitLensFrom (u.2.sharedPrefixLen w.2))) ≤ s.bounds.bytes))

theorem sampleFits_fits {last : Option HeldLog} {publish : RetainedPublish}
    (h : sampleFits last publish = true) : Fits sampleCrypto sampleIdentifier last publish := by
  intro frame chain hdecode hchain s hs _
  rw [sampleFits, hdecode] at h
  dsimp only at h
  rw [hchain] at h
  dsimp only at h
  rw [hs, Option.all_some, Bool.and_eq_true, decide_eq_true_eq, List.all_eq_true] at h
  refine ⟨h.1, ?_⟩
  intro w hw _
  simpa using h.2 w hw

theorem sampleRecordUnits_collisionFree :
    CollisionFree sampleCrypto (preimagesOf sampleRecordUnits) :=
  (world_of_hashes (by decide +kernel)).1

/-- Every publish of the run is accepted, and at its end neither the cache nor the store
gives the log back: the frame stored last begins with an event that the frames before it
already hold. -/
theorem stored_frames_do_not_replay : ∃ st last,
    CollisionFree sampleCrypto (preimagesOf sampleRecordUnits) ∧
    Run sampleCrypto (preimagesOf sampleRecordUnits) .unbounded sampleIdentifier 7
      (fun _ _ => True) st last ∧
    (loadRetained st.storage 7).length = 10 ∧
    (∀ entry, entry = none ∨ entry = st.logs →
      heldLogFrom sampleCrypto entry sampleIdentifier (loadRetained st.storage 7) =
        .error (.loading .firstHeld)) ∧
    ¬ ReadsBack sampleCrypto sampleIdentifier 7 st last := by
  have hend : (sampleRun sampleValid samplePublishes ⟨[], none⟩ none).any (fun t =>
      (loadRetained t.1.storage 7).length = 10 &&
      heldLogFrom sampleCrypto none sampleIdentifier (loadRetained t.1.storage 7) =
        .error (.loading .firstHeld) &&
      heldLogFrom sampleCrypto t.1.logs sampleIdentifier (loadRetained t.1.storage 7) =
        .error (.loading .firstHeld)) = true := by
    decide +kernel
  obtain ⟨⟨st, last⟩, hrun, hfails⟩ := (Option.any_eq_true _ _).mp hend
  simp only [Bool.and_eq_true, decide_eq_true_eq] at hfails
  obtain ⟨⟨hten, hnone⟩, hcached⟩ := hfails
  refine ⟨st, last, sampleRecordUnits_collisionFree, ?_, hten, ?_, ?_⟩
  · exact sampleRun_run (fun last publish h => ⟨sampleValid_publishOf h, trivial⟩) (.start rfl) hrun
  · intro entry hentry
    rcases hentry with rfl | rfl
    · exact hnone
    · exact hcached
  · intro hreads
    obtain ⟨held, hread, -, -⟩ := hreads
    obtain ⟨logs, hok⟩ := hread none (.inr (fun log hlog => by cases hlog))
    rw [hnone] at hok
    cases hok

/-- The first three frames have room, so after them the node reads its log back. -/
theorem run_readsBack_sample : ∃ st last,
    (loadRetained st.storage 7).length = 3 ∧ ReadsBack sampleCrypto sampleIdentifier 7 st last := by
  have hend : (sampleRun (fun last publish => sampleValid last publish && sampleFits last publish)
      (samplePublishes.take 3) ⟨[], none⟩ none).any (fun t =>
        decide ((loadRetained t.1.storage 7).length = 3)) = true := by
    decide +kernel
  obtain ⟨⟨st, last⟩, hrun, hthree⟩ := (Option.any_eq_true _ _).mp hend
  have h : Run sampleCrypto (preimagesOf sampleRecordUnits) .unbounded sampleIdentifier 7
      (Fits sampleCrypto sampleIdentifier) st last := by
    apply sampleRun_run _ (.start rfl) hrun
    intro last publish hpass
    rw [Bool.and_eq_true] at hpass
    exact ⟨sampleValid_publishOf hpass.1, sampleFits_fits hpass.2⟩
  exact ⟨st, last, of_decide_eq_true hthree, run_readsBack sampleCrypto _ .unbounded sampleIdentifier 7
    sampleRecordUnits_collisionFree st last h⟩

end Sample

end ScpCore.Node
