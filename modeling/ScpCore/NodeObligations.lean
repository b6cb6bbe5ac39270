import ScpCore.NodeWrites

/-! What a task knows and what it owes. A task reads records of other routing ids without
their locks, so what it read may be stale; it then relies on another task that still has
to select again at the routing id whose lock it holds. A write puts every routing id that
selects again after it among those its task owes, and a routing id is paid when the task
gives its lock back with the selection in place. -/

namespace ScpCore.Records
open Kel

abbrev View := RoutingId → List StoredBlob
abbrev Reads := List (RoutingId × List StoredBlob)

def Agrees (view : View) (reads : Reads) : Prop := ∀ read ∈ reads, view read.1 = read.2

section Inputs
variable (N : Setting)

def Pinned (contextId : String) (governor : Identifier) : Prop :=
  ∃ pin ∈ N.nodeLists, pin.contextId = contextId ∧ pin.governor = governor

/-- A retained record lies where its content says, and a node list is of a pinned pair. -/
structure Belongs (routing : RoutingId) (blob : StoredBlob) : Prop where
  placed : blob.routingId = routing
  named : (N.content blob.blobId).routingId = routing
  retained : blob.lifetime.isRetained = true
  pinned : ∀ record, N.content blob.blobId = .nodeList record →
    Pinned N record.contextId record.governor

def View.Sound (view : View) : Prop := ∀ routing, ∀ blob ∈ view routing, Belongs N routing blob

/-- What was loaded, if key-event records, replays to a log. -/
def Replays (input : RoutingId) (held : List StoredBlob) : Prop :=
  ∀ identifier, input = .did identifier → ∃ log, heldLogFrom N identifier held = .ok log

/-- A node list of `held` names the operator. -/
def Names (held : List StoredBlob) (operator : Identifier) : Prop :=
  ∃ blob ∈ held, ∃ record, N.content blob.blobId = .nodeList record ∧
    ∃ entry ∈ record.entries, entry.binding.operator = operator

/-- What the selection at `routing` reads beside its own records, after it read `reads`. -/
def Others (routing : RoutingId) (reads : Reads) (input : RoutingId) : Prop :=
  match routing with
  | .did _ => False
  | .svc identifier => input = .did identifier
  | .nls contextId => ∃ governor, Pinned N contextId governor ∧ input = .did governor
  | .wcf subject => input = .did subject ∨ (∃ pin ∈ N.nodeLists, input = .nls pin.contextId) ∨
    ∃ pin ∈ N.nodeLists, ∃ held, (.nls pin.contextId, held) ∈ reads ∧
      ∃ operator, Names N held operator ∧ input = .did operator

/-- A selection loads its own records once. -/
def Inputs (routing : RoutingId) (reads : Reads) (input : RoutingId) : Prop :=
  (input = routing ∧ ∀ read ∈ reads, read.1 ≠ routing) ∨ Others N routing reads input

variable {N}

theorem Others.ne {routing input : RoutingId} {reads : Reads} (h : Others N routing reads input) :
    input ≠ routing := by
  cases routing with
  | did identifier => exact h.elim
  | svc identifier =>
    rw [show input = .did identifier from h]
    simp
  | nls contextId =>
    obtain ⟨governor, -, rfl⟩ := h
    simp
  | wcf subject =>
    rcases h with rfl | ⟨pin, -, rfl⟩ | ⟨pin, -, held, -, operator, -, rfl⟩ <;> simp

theorem Others.mono {routing input : RoutingId} {reads reads' : Reads}
    (h : Others N routing reads input) (hsub : reads ⊆ reads') : Others N routing reads' input := by
  cases routing with
  | did _ => exact h
  | svc _ => exact h
  | nls _ => exact h
  | wcf _ =>
    rcases h with h | h | ⟨pin, hpin, held, hheld, h⟩
    · exact .inl h
    · exact .inr (.inl h)
    · exact .inr (.inr ⟨pin, hpin, held, hsub hheld, h⟩)

end Inputs

namespace Action
variable (N : Setting) {α β : Type}

/-- The program only loads inputs of the selection at `routing`, and ends in `post`. -/
def Loads (routing : RoutingId) : Reads → Action α → (Reads → α → Prop) → Prop
  | reads, .pure a, post => post reads a
  | reads, .load input next, post => Inputs N routing reads input ∧
    ∀ held, (∀ blob ∈ held, Belongs N input blob) →
      (next held).Loads routing ((input, held) :: reads) post
  | _, .lock _ _, _ | _, .unlock _ _, _ | _, .get _ _, _ | _, .store _ _ _ _, _
  | _, .delete _ _, _ => False

variable {N} {routing : RoutingId} {reads : Reads}

theorem loads_bind {a : Action α} {f : α → Action β} {post : Reads → β → Prop}
    (h : a.Loads N routing reads (fun reads' x => (f x).Loads N routing reads' post)) :
    (a.bind f).Loads N routing reads post := by
  induction a generalizing reads with
  | pure x => exact h
  | load input next ih => exact ⟨h.1, fun held hheld => ih held (h.2 held hheld)⟩
  | _ => exact h

theorem Loads.mono {a : Action α} {post post' : Reads → α → Prop}
    (h : a.Loads N routing reads post) (himp : ∀ reads' x, post reads' x → post' reads' x) :
    a.Loads N routing reads post' := by
  induction a generalizing reads with
  | pure x => exact himp _ _ h
  | load input next ih => exact ⟨h.1, fun held hheld => ih held (h.2 held hheld)⟩
  | _ => exact h

/-- What the reads fix: the program returns the same from every view that agrees. -/
theorem Loads.returns {a : Action α} {post : Reads → α → Prop} (h : a.Loads N routing reads post) :
    a.Loads N routing reads (fun reads' x => post reads' x ∧ reads ⊆ reads' ∧
      ∀ view, Agrees view reads' → a.read view = some x) := by
  induction a generalizing reads with
  | pure x => exact ⟨h, List.Subset.refl _, fun _ _ => rfl⟩
  | load input next ih =>
    refine ⟨h.1, fun held hheld => ?_⟩
    refine (ih held (h.2 held hheld)).mono ?_
    intro reads' x hpost
    obtain ⟨hpost, hsub, hread⟩ := hpost
    refine ⟨hpost, fun e he => hsub (List.mem_cons_of_mem _ he), ?_⟩
    intro view hview
    rw [Action.read, hview (input, held) (hsub List.mem_cons_self)]
    exact hread view hview
  | _ => exact h

/-- A view that agrees with another on every input gives the same result. -/
theorem Loads.read_congr {a : Action α} {post : Reads → α → Prop} {view view' : View}
    (h : a.Loads N routing reads post) (hsound : view.Sound N) (hview : Agrees view reads)
    (hsame : ∀ reads' input, Agrees view reads' → input = routing ∨ Others N routing reads' input →
      view' input = view input) : a.read view' = a.read view := by
  induction a generalizing reads with
  | pure x => rfl
  | load input next ih =>
    have hinput : view' input = view input := hsame reads input hview (h.1.imp And.left id)
    rw [Action.read, Action.read, hinput]
    apply ih _ (h.2 _ (hsound input))
    intro read hread
    rcases List.mem_cons.mp hread with rfl | hread
    · rfl
    · exact hview read hread
  | _ => exact h.elim

end Action

/-- The records of `routing` were read as one list. -/
def Once (routing : RoutingId) (reads : Reads) : Prop :=
  ∀ held held', (routing, held) ∈ reads → (routing, held') ∈ reads → held = held'

theorem Once.cons {N : Setting} {routing input : RoutingId} {reads : Reads} {held : List StoredBlob}
    (h : Once routing reads) (hinput : Inputs N routing reads input) :
    Once routing ((input, held) :: reads) := by
  intro v w hv hw
  rcases hinput with ⟨rfl, hnone⟩ | hother
  · have hfirst {u : List StoredBlob} (hu : (input, u) ∈ (input, held) :: reads) : u = held := by
      rcases List.mem_cons.mp hu with hu | hu
      · exact (Prod.mk.inj hu).2
      · exact absurd rfl (hnone _ hu)
    rw [hfirst hv, hfirst hw]
  · have hold {u : List StoredBlob} (hu : (routing, u) ∈ (input, held) :: reads) :
        (routing, u) ∈ reads := by
      rcases List.mem_cons.mp hu with hu | hu
      · exact absurd (Prod.mk.inj hu).1.symm hother.ne
      · exact hu
    exact h v w (hold hv) (hold hw)

theorem Action.Loads.once {N : Setting} {α : Type} {routing : RoutingId} {reads : Reads}
    {a : Action α} {post : Reads → α → Prop} (h : a.Loads N routing reads post)
    (honce : Once routing reads) :
    a.Loads N routing reads (fun reads' x => post reads' x ∧ Once routing reads') := by
  induction a generalizing reads with
  | pure x => exact ⟨h, honce⟩
  | load input next ih => exact ⟨h.1, fun held hheld => ih held (h.2 held hheld) (honce.cons h.1)⟩
  | _ => exact h

section Settled
variable (N : Setting)

/-- The selection of a kind over what the node holds. Key-event records are selected with
the log they are admitted to, so those stored are kept. -/
def selectionAt : RoutingId → Fallible Selection
  | .did identifier => do
    let held ← load (.did identifier)
    pure ⟨held, held.map (·.blobId)⟩
  | .svc identifier => reselectServiceRecords N identifier
  | .nls contextId => reselectNodeList N contextId
  | .wcf subject => reselectConflicts N subject

/-- The stored records are exactly those that the selection keeps. -/
def Settled (view : View) (routing : RoutingId) : Prop :=
  ∃ selection, (selectionAt N routing).run.read view = some (.ok selection) ∧
    ∀ id, id ∈ selection.held.map (·.blobId) ↔ id ∈ selection.kept

/-- The routing ids that select again after a write at `routing`. -/
def affected : RoutingId → Set RoutingId
  | .did identifier => fun r => r = .svc identifier ∨ r = .wcf identifier ∨
    ∃ contextId, Pinned N contextId identifier ∧ r = .nls contextId
  | .svc identifier => {.svc identifier}
  | .nls contextId => {.nls contextId}
  | .wcf subject => {.wcf subject}

end Settled

/-- What is tracked of a task: the routing ids it holds, innermost first, what it read since
it took the last of them, and the routing ids it owes. -/
structure Ledger where
  stack : List RoutingId
  reads : Reads
  owed : Set RoutingId

/-- Applies a write at `routing` to what was read there. -/
def rewrite (routing : RoutingId) (write : List StoredBlob → List StoredBlob) (reads : Reads) :
    Reads :=
  reads.map (fun read => if read.1 = routing then (read.1, write read.2) else read)

namespace Ledger
variable (N : Setting) (g : Ledger)

def take (routing : RoutingId) : Ledger := ⟨routing :: g.stack, [], g.owed⟩

def saw (routing : RoutingId) (held : List StoredBlob) : Ledger :=
  { g with reads := (routing, held) :: g.reads }

def wrote (routing : RoutingId) (write : List StoredBlob → List StoredBlob) : Ledger :=
  ⟨g.stack, rewrite routing write g.reads, g.owed ∪ affected N routing⟩

/-- The selection at `routing` is in place wherever the reads still hold. -/
def Pays (routing : RoutingId) : Prop :=
  ∀ view : View, view.Sound N → Agrees view g.reads → Settled N view routing

end Ledger

namespace Action
variable (N : Setting) {α β : Type}

/-- The program writes only at the routing id it took last, knows its records there when it
stores, and may strike what it owes only where it pays. Under a second lock it relies on the
key-event records it loads to replay. -/
def Safe : Ledger → Action α → (Ledger → α → Prop) → Prop
  | g, .pure a, post => post g a
  | g, .lock (.retained routing) next, post => next.Safe (g.take routing) post
  | g, .lock (.blob _) next, post => next.Safe g post
  | g, .unlock (.retained routing) next, post => ∃ rest, g.stack = routing :: rest ∧
    (next.Safe ⟨rest, [], g.owed⟩ post ∨
      g.Pays N routing ∧ next.Safe ⟨rest, [], g.owed \ {routing}⟩ post)
  | g, .unlock (.blob _) next, post => next.Safe g post
  | g, .load input next, post => ∃ routing rest, g.stack = routing :: rest ∧
    Inputs N routing g.reads input ∧
    ∀ held, (∀ blob ∈ held, Belongs N input blob) → (rest ≠ [] → Replays N input held) →
      (next held).Safe (g.saw input held) post
  | g, .get _ next, post => ∀ blob, (next blob).Safe g post
  | g, .store routing blobId admission next, post => ∃ rest held, g.stack = routing :: rest ∧
    (routing, held) ∈ g.reads ∧ (∀ blob ∈ held, blob.blobId ≠ blobId) ∧
    (∀ blob ∈ held, ∀ a ∈ blob.lifetime.admission, a < admission) ∧
    ∀ now, Belongs N routing ⟨routing, blobId, .retained admission, now⟩ ∧
      (next ⟨routing, blobId, .retained admission, now⟩).Safe
        (g.wrote N routing (· ++ [⟨routing, blobId, .retained admission, now⟩])) post
  | g, .delete blobId next, post => ∃ rest, g.stack = (N.content blobId).routingId :: rest ∧
    next.Safe (g.wrote N (N.content blobId).routingId
      (·.filter (fun blob => blob.blobId ≠ blobId))) post

variable {N} {g : Ledger}

theorem safe_bind {a : Action α} {f : α → Action β} {post : Ledger → β → Prop}
    (h : a.Safe N g (fun g' x => (f x).Safe N g' post)) : (a.bind f).Safe N g post := by
  induction a generalizing g with
  | pure x => exact h
  | lock key next ih =>
    cases key with
    | retained routing => exact ih h
    | blob blobId => exact ih h
  | unlock key next ih =>
    cases key with
    | retained routing =>
      obtain ⟨rest, hstack, h⟩ := h
      exact ⟨rest, hstack, h.imp ih (And.imp_right ih)⟩
    | blob blobId => exact ih h
  | load input next ih =>
    obtain ⟨routing, rest, hstack, hinput, h⟩ := h
    exact ⟨routing, rest, hstack, hinput,
      fun held hheld hreplays => ih held (h held hheld hreplays)⟩
  | get blobId next ih => exact fun blob => ih blob (h blob)
  | store routing blobId admission next ih =>
    obtain ⟨rest, held, hstack, hheld, hnew, hlt, h⟩ := h
    exact ⟨rest, held, hstack, hheld, hnew, hlt, fun now => ⟨(h now).1, ih _ (h now).2⟩⟩
  | delete blobId next ih =>
    obtain ⟨rest, hstack, h⟩ := h
    exact ⟨rest, hstack, ih h⟩

theorem Safe.mono {a : Action α} {post post' : Ledger → α → Prop} (h : a.Safe N g post)
    (himp : ∀ g' x, post g' x → post' g' x) : a.Safe N g post' := by
  induction a generalizing g with
  | pure x => exact himp _ _ h
  | lock key next ih =>
    cases key with
    | retained routing => exact ih h
    | blob blobId => exact ih h
  | unlock key next ih =>
    cases key with
    | retained routing =>
      obtain ⟨rest, hstack, h⟩ := h
      exact ⟨rest, hstack, h.imp ih (And.imp_right ih)⟩
    | blob blobId => exact ih h
  | load input next ih =>
    obtain ⟨routing, rest, hstack, hinput, h⟩ := h
    exact ⟨routing, rest, hstack, hinput,
      fun held hheld hreplays => ih held (h held hheld hreplays)⟩
  | get blobId next ih => exact fun blob => ih blob (h blob)
  | store routing blobId admission next ih =>
    obtain ⟨rest, held, hstack, hheld, hnew, hlt, h⟩ := h
    exact ⟨rest, held, hstack, hheld, hnew, hlt, fun now => ⟨(h now).1, ih _ (h now).2⟩⟩
  | delete blobId next ih =>
    obtain ⟨rest, hstack, h⟩ := h
    exact ⟨rest, hstack, ih h⟩

/-- A program that only loads is safe under the lock it selects for. -/
theorem Loads.safe {a : Action α} {routing : RoutingId} {rest : List RoutingId} {reads : Reads}
    {owed : Set RoutingId} {post : Ledger → α → Prop}
    (h : a.Loads N routing reads (fun reads' x => post ⟨routing :: rest, reads', owed⟩ x)) :
    a.Safe N ⟨routing :: rest, reads, owed⟩ post := by
  induction a generalizing reads with
  | pure x => exact h
  | load input next ih =>
    exact ⟨routing, rest, rfl, h.1, fun held hheld _ => ih held (h.2 held hheld)⟩
  | _ => exact h.elim

variable (N) in
/-- The program only loads and ends in `post`, whenever the key-event records it loads replay. -/
def Sure : Action α → (α → Prop) → Prop
  | .pure a, post => post a
  | .load input next, post => ∀ held, (∀ blob ∈ held, Belongs N input blob) →
    Replays N input held → (next held).Sure post
  | .lock _ _, _ | .unlock _ _, _ | .get _ _, _ | .store _ _ _ _, _ | .delete _ _, _ => False

theorem sure_bind {a : Action α} {f : α → Action β} {post : β → Prop}
    (h : a.Sure N (fun x => (f x).Sure N post)) : (a.bind f).Sure N post := by
  induction a with
  | pure x => exact h
  | load input next ih =>
    exact fun held hheld hreplays => ih held (h held hheld hreplays)
  | _ => exact h

theorem Sure.mono {a : Action α} {post post' : α → Prop} (h : a.Sure N post)
    (himp : ∀ x, post x → post' x) : a.Sure N post' := by
  induction a with
  | pure x => exact himp x h
  | load input next ih =>
    exact fun held hheld hreplays => ih held (h held hheld hreplays)
  | _ => exact h

/-- Under a second lock such a program ends as it must. -/
theorem Loads.safe_sure {a : Action α} {routing : RoutingId} {rest : List RoutingId}
    {reads : Reads} {owed : Set RoutingId} {post : Ledger → α → Prop} {result : α → Prop}
    (h : a.Loads N routing reads (fun reads' x => result x → post ⟨routing :: rest, reads', owed⟩ x))
    (hsure : a.Sure N result) (hrest : rest ≠ []) :
    a.Safe N ⟨routing :: rest, reads, owed⟩ post := by
  induction a generalizing reads with
  | pure x => exact h hsure
  | load input next ih =>
    refine ⟨routing, rest, rfl, h.1, fun held hheld hreplays => ?_⟩
    exact ih held (h.2 held hheld) (hsure held hheld (hreplays hrest))
  | _ => exact h.elim

end Action

end ScpCore.Records
