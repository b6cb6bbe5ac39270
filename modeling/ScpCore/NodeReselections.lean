import ScpCore.NodeSelections

/-! When a reselection ends in a selection. The records it reads lie where their content
says, so they decode; only a key-event log can fail to be read, when the stored frames do
not replay. -/

namespace ScpCore.Records
open Kel

section Decode
variable {N : Setting} {blob : StoredBlob}

theorem mapM_ok {ρ : Type} {decode : StoredBlob → Except Refusal ρ} {held : List StoredBlob}
    (h : ∀ blob ∈ held, ∃ record, decode blob = .ok record) :
    ∃ records, held.mapM decode = .ok records := by
  induction held with
  | nil => exact ⟨[], rfl⟩
  | cons blob rest ih =>
    obtain ⟨record, hrecord⟩ := h blob List.mem_cons_self
    obtain ⟨records, hrecords⟩ := ih (fun b hb => h b (List.mem_cons_of_mem _ hb))
    refine ⟨record :: records, ?_⟩
    rw [List.mapM_cons, hrecord, hrecords]
    rfl

theorem Belongs.service {identifier : Identifier} (h : Belongs N (.svc identifier) blob) :
    ∃ record, decodeServiceRecord N blob = .ok record := by
  have hnamed := h.named
  unfold decodeServiceRecord
  cases hcontent : N.content blob.blobId <;> simp_all [Record.routingId]

theorem Belongs.nodeList {contextId : String} (h : Belongs N (.nls contextId) blob) :
    ∃ record, decodeNodeList N blob = .ok record := by
  have hnamed := h.named
  unfold decodeNodeList
  cases hcontent : N.content blob.blobId <;> simp_all [Record.routingId]

theorem Belongs.conflicts {subject : Identifier} (h : Belongs N (.wcf subject) blob) :
    ∃ record, decodeConflict N blob = .ok record := by
  have hnamed := h.named
  unfold decodeConflict
  cases hcontent : N.content blob.blobId <;> simp_all [Record.routingId]

end Decode

section Sure
variable {N : Setting} {α β : Type}

variable (N) in
/-- The program ends in a value that satisfies `post`, and in no refusal. -/
def Fallible.Sure (x : Fallible α) (post : α → Prop) : Prop :=
  x.run.Sure N (fun result => ∃ a, result = .ok a ∧ post a)

theorem sure_pure {a : α} {post : α → Prop} (h : post a) : (pure a : Fallible α).Sure N post :=
  ⟨a, rfl, h⟩

theorem sure_fallible_bind {x : Fallible α} {f : α → Fallible β} {post : α → Prop}
    {post' : β → Prop} (h : x.Sure N post) (h' : ∀ a, post a → (f a).Sure N post') :
    (x >>= f).Sure N post' := by
  apply Action.sure_bind
  apply h.mono
  rintro _ ⟨a, rfl, ha⟩
  exact h' a ha

theorem sure_liftExcept {result : Except Refusal α} (h : ∃ a, result = .ok a) :
    (liftExcept result).Sure N (fun a => result = .ok a) := by
  obtain ⟨a, rfl⟩ := h
  exact ⟨a, rfl, rfl⟩

theorem sure_load (routing : RoutingId) : (load routing).Sure N (fun held =>
    (∀ blob ∈ held, Belongs N routing blob) ∧ Replays N routing held) :=
  fun held hheld hreplays => ⟨held, rfl, hheld, hreplays⟩

theorem sure_heldLog (identifier : Identifier) : (heldLog N identifier).Sure N (fun _ => True) := by
  apply sure_fallible_bind (sure_load _)
  rintro stored ⟨-, hreplays⟩
  exact (sure_liftExcept (hreplays identifier rfl)).mono
    (fun _ ⟨log, hlog, _⟩ => ⟨log, hlog, trivial⟩)

theorem sure_chainsOf (chains : ChainsRead) (identifier : Identifier) :
    (chainsOf N chains identifier).Sure N (fun _ => True) := by
  unfold chainsOf
  cases chains.get identifier with
  | some held => exact sure_pure trivial
  | none => exact sure_fallible_bind (sure_heldLog identifier) (fun _ _ => sure_pure trivial)

theorem sure_heldNodeListsFrom {chains : ChainsRead} {stored : List StoredBlob}
    (h : ∀ blob ∈ stored, ∃ record, decodeNodeList N blob = .ok record) :
    (heldNodeListsFrom N chains stored).Sure N (fun _ => True) := by
  induction stored generalizing chains with
  | nil => exact sure_pure trivial
  | cons blob rest ih =>
    apply sure_fallible_bind (sure_liftExcept (h blob List.mem_cons_self))
    intro record _
    apply sure_fallible_bind (sure_chainsOf chains record.governor)
    intro read _
    apply sure_fallible_bind (ih (fun b hb => h b (List.mem_cons_of_mem _ hb)))
    exact fun _ _ => sure_pure trivial

theorem sure_pinnedNodeListsFrom (pins : List NodeListPin) :
    (pinnedNodeListsFrom N pins).Sure N (fun _ => True) := by
  induction pins with
  | nil => exact sure_pure trivial
  | cons pin rest ih =>
    apply sure_fallible_bind (sure_load _)
    rintro stored ⟨hstored, -⟩
    apply sure_fallible_bind (sure_liftExcept (mapM_ok (fun blob hblob => (hstored blob hblob).nodeList)))
    intro records _
    exact sure_fallible_bind ih (fun _ _ => sure_pure trivial)

theorem sure_boundWitnessesFrom {chains : ChainsRead} {bound : Bound} (entries : List NodeListEntry) :
    (boundWitnessesFrom N chains bound entries).Sure N (fun _ => True) := by
  induction entries generalizing chains bound with
  | nil => exact sure_pure trivial
  | cons entry rest ih =>
    exact sure_fallible_bind (sure_chainsOf chains entry.binding.operator) (fun _ _ => ih)

/-- Every selection ends in one, if the key-event records it reads replay. -/
theorem sure_selectionAt (routing : RoutingId) :
    (selectionAt N routing).Sure N (fun _ => True) := by
  cases routing with
  | did identifier => exact sure_fallible_bind (sure_load _) (fun _ _ => sure_pure trivial)
  | svc identifier =>
    apply sure_fallible_bind (sure_load _)
    rintro held ⟨hheld, -⟩
    split_ifs
    · exact sure_pure trivial
    · apply sure_fallible_bind (sure_heldLog identifier)
      intro log _
      apply sure_fallible_bind (sure_liftExcept (mapM_ok (fun blob hblob => (hheld blob hblob).service)))
      exact fun _ _ => sure_pure trivial
  | nls contextId =>
    apply sure_fallible_bind (sure_load _)
    rintro held ⟨hheld, -⟩
    apply sure_fallible_bind (sure_heldNodeListsFrom (fun blob hblob => (hheld blob hblob).nodeList))
    exact fun _ _ => sure_pure trivial
  | wcf subject =>
    apply sure_fallible_bind (sure_load _)
    rintro held ⟨hheld, -⟩
    split_ifs
    · exact sure_pure trivial
    · apply sure_fallible_bind (sure_pinnedNodeListsFrom N.nodeLists)
      intro lists _
      apply sure_fallible_bind (sure_boundWitnessesFrom _)
      intro bound _
      apply sure_fallible_bind (sure_heldLog subject)
      intro log _
      apply sure_fallible_bind
        (sure_liftExcept (mapM_ok (fun blob hblob => (hheld blob hblob).conflicts)))
      exact fun _ _ => sure_pure trivial

end Sure

end ScpCore.Records
