import ScpCore.Interrupted

/-! Actors. An actor has its state in memory, the snapshot it last wrote, and an inbox that
it handles in order. When it goes down it is started again from the snapshot; what it has
done outside stays done. A sender waits for the answer, and may give up on it while the
message is still in the inbox. -/

namespace ScpCore

open Prog

structure Actor (σ μ δ : Type) where
  mem : σ
  disk : σ
  generation : ℕ
  inbox : List μ
  outside : δ

inductive Delivery (α : Type)
  | answered (a : α)
  | unanswered
  | undelivered

namespace Actor
variable {ω σ μ δ ε α : Type}

def respawn (a : Actor σ μ δ) : Actor σ μ δ :=
  { a with mem := a.disk, generation := a.generation+1, inbox := [] }

def flush (a : Actor σ μ δ) : Actor σ μ δ := { a with disk := a.mem }

def update (f : σ → σ) (a : Actor σ μ δ) : Actor σ μ δ := { a with mem := f a.mem }

def act (f : δ → δ) (a : Actor σ μ δ) : Actor σ μ δ := { a with outside := f a.outside }

def enqueue (m : μ) (a : Actor σ μ δ) : Actor σ μ δ := { a with inbox := a.inbox ++ [m] }

def persist (op : ω) : Prog ω (Actor σ μ δ) ε Bool := do
  if ← attempt op then
    modify flush
    pure true
  else pure false

/-- A change that stays in memory when its persist fails. -/
def commitKeep (op : ω) (f : σ → σ) : Prog ω (Actor σ μ δ) ε Bool := do
  modify (update f)
  persist op

/-- A change that is undone when its persist fails. -/
def commitRestore (op : ω) (f : σ → σ) (undo : σ → σ → σ) : Prog ω (Actor σ μ δ) ε Bool := do
  let before ← get
  modify (update f)
  if ← persist op then pure true
  else
    modify (update (undo before.mem))
    pure false

section Send
variable (coalesce : ω) (serve : μ → Prog ω (Actor σ μ δ) ε Unit)

/-- The messages whose senders no longer wait. The run loop may write the state after each. -/
def drain : List μ → Prog ω (Actor σ μ δ) ε Unit
  | [] => pure ()
  | m :: ms => do
    modify (fun a => { a with inbox := ms })
    serve m
    let _ ← persist coalesce
    drain ms

def handleNext (reply : ω) {κ : Type} (p : Prog ω (Actor σ μ δ) κ α) :
    Prog ω (Actor σ μ δ) ε (Except κ α × Bool) := do
  let a ← get
  drain coalesce serve a.inbox
  let answer ← observe p
  let replied ← attempt reply
  pure (answer, replied)

/-- A message that is put off stays in the inbox; one that is lost or whose actor goes down
is never handled. The sender cannot tell these from a lost answer. -/
def send (enqueueOp reply : ω) (m : μ) {κ : Type} (p : Prog ω (Actor σ μ δ) κ α) :
    Prog ω (Actor σ μ δ) ε (Delivery (Except κ α)) := do
  match ← ask enqueueOp with
  | .ok =>
    match ← supervise respawn (handleNext coalesce serve reply p) with
    | none => pure .unanswered
    | some (answer, replied) => do
      let _ ← supervise respawn (persist coalesce)
      pure (if replied then .answered answer else .unanswered)
  | .late => do
    modify (enqueue m)
    pure .unanswered
  | .down => do
    modify respawn
    pure .unanswered
  | .lost => pure .unanswered
  | _ => pure .undelivered

end Send

variable {env : Env ω} {E : ε → Actor σ μ δ → Prop} {R : Cut → Actor σ μ δ → Prop} {a : Actor σ μ δ}

theorem wp_persist {op : ω} {Q : Bool → Actor σ μ δ → Prop}
    (hok : (∃ n, env n op = .ok) → Q true a.flush)
    (hfail : (∃ n, (env n op).Refuses) → Q false a)
    (hR : ∀ c, (∃ n, env n op = c.fate) → R c a) :
    wp env (persist op : Prog ω (Actor σ μ δ) ε Bool) Q E R a := by
  apply wp_bind
  apply wp_attempt
  · intro h
    apply wp_bind
    exact wp_modify (wp_pure (hok h))
  · intro h
    exact wp_pure (hfail h)
  · exact hR

theorem wp_commitKeep {op : ω} {f : σ → σ} {Q : Bool → Actor σ μ δ → Prop}
    (hok : (∃ n, env n op = .ok) → Q true (a.update f).flush)
    (hfail : (∃ n, (env n op).Refuses) → Q false (a.update f))
    (hR : ∀ c, (∃ n, env n op = c.fate) → R c (a.update f)) :
    wp env (commitKeep op f : Prog ω (Actor σ μ δ) ε Bool) Q E R a := by
  apply wp_bind
  exact wp_modify (wp_persist hok hfail hR)

theorem wp_commitRestore {op : ω} {f : σ → σ} {undo : σ → σ → σ} {Q : Bool → Actor σ μ δ → Prop}
    (hok : (∃ n, env n op = .ok) → Q true (a.update f).flush)
    (hfail : (∃ n, (env n op).Refuses) →
      Q false ((a.update f).update (undo a.mem)))
    (hR : ∀ c, (∃ n, env n op = c.fate) → R c (a.update f)) :
    wp env (commitRestore op f undo : Prog ω (Actor σ μ δ) ε Bool) Q E R a := by
  apply wp_bind
  apply wp_get
  apply wp_bind
  apply wp_modify
  apply wp_bind
  apply wp_persist
  · intro h
    exact wp_pure (hok h)
  · intro h
    apply wp_bind
    exact wp_modify (wp_pure (hfail h))
  · exact hR

/-- A property that a written snapshot and a new start keep. -/
structure Steady (P : Actor σ μ δ → Prop) : Prop where
  flush : ∀ a, P a → P a.flush
  respawn : ∀ a, P a → P a.respawn

theorem wp_coalesce {op : ω} {P : Actor σ μ δ → Prop} (hP : Steady P)
    (hR : ∀ a, P a → R .crash a) (h : P a) :
    wp env (supervise respawn (persist op) : Prog ω (Actor σ μ δ) ε (Option Bool))
      (fun _ => P) E R a := by
  apply wp_supervise
  apply wp_persist
  · intro _
    exact hP.flush a h
  · intro _
    exact h
  · intro c _
    cases c with
    | down => exact hP.respawn a h
    | crash => exact hR a h

/-- The messages of an inbox one after the other, with `I ms` before the messages `ms`. -/
theorem wp_drain {coalesce : ω} {serve : μ → Prog ω (Actor σ μ δ) ε Unit}
    {I : List μ → Actor σ μ δ → Prop}
    (hserve : ∀ m ms a, I (m :: ms) a →
      wp env (serve m) (fun _ => I ms) E R { a with inbox := ms })
    (hflush : ∀ ms a, I ms a → I ms a.flush) (hR : ∀ ms a c, I ms a → R c a) :
    ∀ ms a, I ms a → wp env (drain coalesce serve ms) (fun _ => I []) E R a := by
  intro ms
  induction ms with
  | nil =>
    intro a h
    exact wp_pure h
  | cons m ms ih =>
    intro a h
    apply wp_bind
    apply wp_modify
    apply wp_bind
    apply wp_mono (hserve m ms a h) _ (fun _ _ h => h) (fun _ _ h => h)
    intro _ a ha
    apply wp_bind
    apply wp_persist
    · intro _
      exact ih a.flush (hflush ms a ha)
    · intro _
      exact ih a ha
    · intro c _
      exact hR ms a c ha

section Send
variable {coalesce enqueueOp reply : ω} {serve : μ → Prog ω (Actor σ μ δ) ε Unit} {m : μ} {κ : Type}
  {p : Prog ω (Actor σ μ δ) κ α} {Lost Back : Actor σ μ δ → Prop}
  {After : Except κ α → Actor σ μ δ → Prop}

/-- What a sender may rely on: the message was answered, it may have been handled or not,
or it never arrived. -/
def Sent (After : Except κ α → Actor σ μ δ → Prop) (Lost Back : Actor σ μ δ → Prop) :
    Delivery (Except κ α) → Actor σ μ δ → Prop
  | .answered answer, a => After answer a
  | .unanswered, a => Lost a
  | .undelivered, a => Back a

/-- The two kinds of answer. -/
def Replied (Ok : α → Actor σ μ δ → Prop) (Err : Actor σ μ δ → Prop) :
    Except κ α → Actor σ μ δ → Prop
  | .ok x, a => Ok x a
  | .error _, a => Err a

theorem steady_replied {Ok : α → Actor σ μ δ → Prop} {Err : Actor σ μ δ → Prop}
    (hok : ∀ x, Steady (Ok x)) (herr : Steady Err) (answer : Except κ α) :
    Steady (Replied Ok Err answer) := by
  cases answer with
  | ok x => exact hok x
  | error e => exact herr

theorem replied_imp {Ok : α → Actor σ μ δ → Prop} {Err P : Actor σ μ δ → Prop}
    (hok : ∀ x a, Ok x a → P a) (herr : ∀ a, Err a → P a) (answer : Except κ α)
    (a : Actor σ μ δ) (h : Replied Ok Err answer a) : P a := by
  cases answer with
  | ok x => exact hok x a h
  | error e => exact herr a h

theorem wp_handleNext {Before Drained : Actor σ μ δ → Prop}
    (hdrain : ∀ a, Before a → wp env (drain coalesce serve a.inbox) (fun _ => Drained)
      (fun _ _ => False) R a)
    (hp : ∀ a, Drained a → wp env p (fun x => After (.ok x)) (fun e => After (.error e)) R a)
    (hreply : ∀ answer a c, (∃ n, env n reply = c.fate) → After answer a → R c a) (h : Before a) :
    wp env (handleNext coalesce serve reply p)
      (fun answer a => After answer.1 a ∧ (answer.2 = false → ∃ n, (env n reply).Refuses))
      (fun _ _ => False) R a := by
  have hanswer (answer : Except κ α) (a : Actor σ μ δ) (ha : After answer a) :
      wp env (do let replied ← attempt reply; pure (answer, replied))
        (fun answer a => After answer.1 a ∧ (answer.2 = false → ∃ n, (env n reply).Refuses))
        (fun (_ : ε) _ => False) R a := by
    apply wp_bind
    apply wp_attempt
    · intro _
      exact wp_pure ⟨ha, by simp⟩
    · intro hn
      exact wp_pure ⟨ha, fun _ => hn⟩
    · intro c hc
      exact hreply answer a c hc ha
  apply wp_bind
  apply wp_get
  apply wp_bind
  apply wp_mono (hdrain a h) _ (fun _ _ h => h) (fun _ _ h => h)
  intro _ a ha
  apply wp_bind
  apply wp_observe
  exact wp_mono (hp a ha) (fun x a => hanswer (.ok x) a) (fun e a => hanswer (.error e) a)
    (fun _ _ h => h)

theorem wp_send (Before Drained : Actor σ μ δ → Prop)
    (hdrain : ∀ a, Before a → wp env (drain coalesce serve a.inbox) (fun _ => Drained)
      (fun _ _ => False) R a)
    (hp : ∀ a, Drained a → wp env p (fun x => After (.ok x)) (fun e => After (.error e)) R a)
    (hreply : ∀ answer a c, (∃ n, env n reply = c.fate) → After answer a → R c a)
    (hBR : ∀ a, Before a → R .crash a) (hAR : ∀ answer a, After answer a → R .crash a)
    (hLR : ∀ a, Lost a → R .crash a) (hdown : ∀ a, R .down a → Lost a.respawn)
    (hdied : ∀ a, (∃ n, env n enqueueOp = .down) → Before a → Lost a.respawn)
    (hlost : ∀ answer a, (∃ n, (env n reply).Refuses) → After answer a → Lost a)
    (hlate : ∀ a, (∃ n, env n enqueueOp = .late) → Before a → Lost (a.enqueue m))
    (hgone : ∀ a, (∃ n, env n enqueueOp = .lost) → Before a → Lost a)
    (hback : ∀ a, (∃ n, env n enqueueOp = .fail) → Before a → Back a)
    (hAfter : ∀ answer, Steady (After answer)) (hLost : Steady Lost) (h : Before a) :
    wp env (send coalesce serve enqueueOp reply m p) (Sent After Lost Back) E
      (fun c a => c = .crash ∧ R .crash a) a := by
  apply wp_bind
  apply wp_ask
  · intro fate hfate hne
    cases fate with
    | ok =>
      apply wp_bind
      apply wp_supervise
      apply wp_mono (wp_handleNext hdrain hp hreply h)
      · rintro ⟨answer, replied⟩ a ⟨ha, hr⟩
        apply wp_bind
        -- The state may be written after the answer, and the actor may go down then.
        cases replied with
        | true =>
          apply wp_mono (wp_coalesce (hAfter answer) (R := fun c a => c = .crash ∧ R .crash a)
            (fun a ha => ⟨rfl, hAR answer a ha⟩) ha) _ (fun _ _ h => h) (fun _ _ h => h)
          intro _ a ha
          exact wp_pure ha
        | false =>
          apply wp_mono (wp_coalesce hLost (R := fun c a => c = .crash ∧ R .crash a)
            (fun a ha => ⟨rfl, hLR a ha⟩) (hlost answer a (hr rfl) ha)) _ (fun _ _ h => h)
            (fun _ _ h => h)
          intro _ a ha
          exact wp_pure ha
      · intro _ _ hfalse
        exact hfalse.elim
      · intro c a hR
        cases c with
        | down =>
          simp only [supervised]
          exact wp_pure (hdown a hR)
        | crash => exact ⟨rfl, hR⟩
    | late =>
      apply wp_bind
      exact wp_modify (wp_pure (hlate a hfate h))
    | down =>
      apply wp_bind
      exact wp_modify (wp_pure (hdied a hfate h))
    | lost => exact wp_pure (hgone a hfate h)
    | fail => exact wp_pure (hback a hfate h)
    | crash => exact absurd rfl hne
  · intro _
    exact ⟨rfl, hBR a h⟩

end Send

end Actor

end ScpCore
