import Mathlib

/-! Programs that their environment interrupts. The environment gives each operation a
fate by its place in the run: the operation goes through, is refused, put off or lost, takes
down the process that performs it, or takes down the machine. A program ends with a value
or an error, or it is cut off at an operation; the state it leaves is kept in every case. -/

namespace ScpCore

inductive Fate
  | ok | fail | late | lost | down | crash
  deriving DecidableEq

def Fate.Refuses (fate : Fate) : Prop := fate = .fail ∨ fate = .late ∨ fate = .lost

/-- A program is cut off with its process or with the machine. -/
inductive Cut
  | down | crash

def Cut.fate : Cut → Fate
  | .down => .down
  | .crash => .crash

/-- The fate of each operation, by its place in the run. -/
abbrev Env (ω : Type) := ℕ → ω → Fate

inductive Exit (ε α : Type)
  | ok (a : α)
  | error (e : ε)
  | cut (c : Cut)

def Prog (ω σ ε α : Type) := Env ω → ℕ → σ → Exit ε α × ℕ × σ

namespace Prog
variable {ω σ τ ε α β : Type}

def bind (p : Prog ω σ ε α) (f : α → Prog ω σ ε β) : Prog ω σ ε β := fun env n s =>
  match p env n s with
  | (.ok a, n, s) => f a env n s
  | (.error e, n, s) => (.error e, n, s)
  | (.cut c, n, s) => (.cut c, n, s)

instance : Monad (Prog ω σ ε) where
  pure a := fun _ n s => (.ok a, n, s)
  bind := bind

def get : Prog ω σ ε σ := fun _ n s => (.ok s, n, s)

def modify (f : σ → σ) : Prog ω σ ε Unit := fun _ n s => (.ok (), n, f s)

def fail (e : ε) : Prog ω σ ε α := fun _ n s => (.error e, n, s)

/-- The error of a program as a value. -/
def observe {δ : Type} (p : Prog ω σ ε α) : Prog ω σ δ (Except ε α) := fun env n s =>
  match p env n s with
  | (.ok a, n, s) => (.ok (.ok a), n, s)
  | (.error e, n, s) => (.ok (.error e), n, s)
  | (.cut c, n, s) => (.cut c, n, s)

/-- The fate of an operation. A crash ends the program here. -/
def ask (op : ω) : Prog ω σ ε Fate := fun env n s =>
  match env n op with
  | .crash => (.cut .crash, n+1, s)
  | fate => (.ok fate, n+1, s)

/-- An operation of the process that runs the program: it takes the process down as well. -/
def attempt (op : ω) : Prog ω σ ε Bool := fun env n s =>
  match env n op with
  | .crash => (.cut .crash, n+1, s)
  | .down => (.cut .down, n+1, s)
  | fate => (.ok (fate = .ok), n+1, s)

/-- An operation whose process outlives it. -/
def succeeds (op : ω) : Prog ω σ ε Bool := do
  let fate ← ask op
  pure (fate = .ok)

/-- An operation whose refusal is an error. -/
def attemptOr (op : ω) (e : ε) : Prog ω σ ε Unit := do
  if ← attempt op then pure () else fail e

/-- A program on a part of the state. -/
def zoom (part : τ → σ) (put : σ → τ → τ) (p : Prog ω σ ε α) : Prog ω τ ε α := fun env n t =>
  match p env n (part t) with
  | (exit, n, s) => (exit, n, put s t)

/-- A process that is started again by `respawn` when it goes down. -/
def supervise (respawn : σ → σ) (p : Prog ω σ ε α) : Prog ω σ ε (Option α) := fun env n s =>
  match p env n s with
  | (.ok a, n, s) => (.ok (some a), n, s)
  | (.error e, n, s) => (.error e, n, s)
  | (.cut .down, n, s) => (.ok none, n, respawn s)
  | (.cut .crash, n, s) => (.cut .crash, n, s)

/-- From `s` the program ends in a value with `Q`, in an error with `E`, or it is cut off
with `R`, wherever in the run it starts. -/
def wp (env : Env ω) (p : Prog ω σ ε α) (Q : α → σ → Prop) (E : ε → σ → Prop) (R : Cut → σ → Prop)
    (s : σ) : Prop :=
  ∀ n, match p env n s with
    | (.ok a, _, s) => Q a s
    | (.error e, _, s) => E e s
    | (.cut c, _, s) => R c s

variable {env : Env ω} {Q Q' : α → σ → Prop} {E E' : ε → σ → Prop} {R R' : Cut → σ → Prop} {s : σ}

theorem wp_mono {p : Prog ω σ ε α} (h : wp env p Q E R s) (hQ : ∀ a s, Q a s → Q' a s)
    (hE : ∀ e s, E e s → E' e s) (hR : ∀ c s, R c s → R' c s) : wp env p Q' E' R' s := by
  intro n
  have hn := h n
  rcases hp : p env n s with ⟨a | e | c, n', s'⟩
  · rw [hp] at hn
    exact hQ a s' hn
  · rw [hp] at hn
    exact hE e s' hn
  · rw [hp] at hn
    exact hR c s' hn

theorem wp_pure {a : α} (h : Q a s) : wp env (pure a : Prog ω σ ε α) Q E R s := fun _ => h

theorem wp_bind {p : Prog ω σ ε α} {f : α → Prog ω σ ε β} {Q : β → σ → Prop}
    (h : wp env p (fun a s => wp env (f a) Q E R s) E R s) : wp env (p >>= f) Q E R s := by
  intro n
  have hn := h n
  change match Prog.bind p f env n s with
    | (.ok a, _, s) => Q a s
    | (.error e, _, s) => E e s
    | (.cut c, _, s) => R c s
  rcases hp : p env n s with ⟨a | e | c, n', s'⟩
  · simp only [hp] at hn
    simp only [Prog.bind, hp]
    exact hn n'
  · simp only [hp] at hn
    simpa only [Prog.bind, hp] using hn
  · simp only [hp] at hn
    simpa only [Prog.bind, hp] using hn

theorem wp_get {Q : σ → σ → Prop} (h : Q s s) : wp env (get : Prog ω σ ε σ) Q E R s := fun _ => h

theorem wp_modify {Q : Unit → σ → Prop} {f : σ → σ} (h : Q () (f s)) :
    wp env (modify f : Prog ω σ ε Unit) Q E R s := fun _ => h

theorem wp_fail {e : ε} (h : E e s) : wp env (fail e : Prog ω σ ε α) Q E R s := fun _ => h

theorem wp_observe {δ : Type} {p : Prog ω σ ε α} {Q : Except ε α → σ → Prop} {E : δ → σ → Prop}
    (h : wp env p (fun a s => Q (.ok a) s) (fun e s => Q (.error e) s) R s) :
    wp env (observe p) Q E R s := by
  intro n
  have hn := h n
  rcases hp : p env n s with ⟨a | e | c, n', s'⟩ <;> simp only [hp] at hn <;>
    simpa only [observe, hp] using hn

/-- Each fate that the environment ever gives to the operation is met. -/
theorem wp_ask {op : ω} {Q : Fate → σ → Prop}
    (h : ∀ fate, (∃ n, env n op = fate) → fate ≠ .crash → Q fate s)
    (hR : (∃ n, env n op = .crash) → R .crash s) : wp env (ask op : Prog ω σ ε Fate) Q E R s := by
  intro n
  cases hf : env n op <;> simp only [ask, hf]
  case crash => exact hR ⟨n, hf⟩
  all_goals exact h _ ⟨n, hf⟩ (by simp)

theorem wp_attempt {op : ω} {Q : Bool → σ → Prop} (hok : (∃ n, env n op = .ok) → Q true s)
    (hfail : (∃ n, (env n op).Refuses) → Q false s) (hR : ∀ c, (∃ n, env n op = c.fate) → R c s) :
    wp env (attempt op : Prog ω σ ε Bool) Q E R s := by
  intro n
  cases hf : env n op <;> simp only [attempt, hf]
  case ok => exact hok ⟨n, hf⟩
  case fail | late | lost => exact hfail ⟨n, by simp [hf, Fate.Refuses]⟩
  case down => exact hR .down ⟨n, hf⟩
  case crash => exact hR .crash ⟨n, hf⟩

theorem wp_succeeds {op : ω} {Q : Bool → σ → Prop} (hok : (∃ n, env n op = .ok) → Q true s)
    (hfail : (∃ n, env n op ≠ .ok ∧ env n op ≠ .crash) → Q false s)
    (hR : (∃ n, env n op = .crash) → R .crash s) :
    wp env (succeeds op : Prog ω σ ε Bool) Q E R s := by
  apply wp_bind
  apply wp_ask
  · rintro fate ⟨n, hn⟩ hne
    apply wp_pure
    by_cases hok' : fate = .ok
    · simpa [hok'] using hok ⟨n, hn.trans hok'⟩
    · simpa [hok'] using hfail ⟨n, by rw [hn]; exact ⟨hok', hne⟩⟩
  · exact hR

theorem wp_attemptOr {op : ω} {e : ε} {Q : Unit → σ → Prop} (hok : (∃ n, env n op = .ok) → Q () s)
    (hfail : (∃ n, (env n op).Refuses) → E e s) (hR : ∀ c, (∃ n, env n op = c.fate) → R c s) :
    wp env (attemptOr op e) Q E R s := by
  apply wp_bind
  apply wp_attempt
  · intro h
    exact wp_pure (hok h)
  · intro h
    exact wp_fail (hfail h)
  · exact hR

theorem wp_zoom {part : τ → σ} {put : σ → τ → τ} {p : Prog ω σ ε α} {Q : α → τ → Prop}
    {E : ε → τ → Prop} {R : Cut → τ → Prop} {t : τ}
    (h : wp env p (fun a s => Q a (put s t)) (fun e s => E e (put s t))
      (fun c s => R c (put s t)) (part t)) : wp env (zoom part put p) Q E R t := by
  intro n
  have hn := h n
  rcases hp : p env n (part t) with ⟨a | e | c, n', s'⟩ <;> simp only [hp] at hn <;>
    simpa only [zoom, hp] using hn

/-- What a supervised program must leave when it is cut off. -/
def supervised (respawn : σ → σ) (Q : Option α → σ → Prop) (R : Cut → σ → Prop) :
    Cut → σ → Prop
  | .down, s => Q none (respawn s)
  | .crash, s => R .crash s

theorem wp_supervise {respawn : σ → σ} {p : Prog ω σ ε α} {Q : Option α → σ → Prop}
    (h : wp env p (fun a s => Q (some a) s) E (supervised respawn Q R) s) :
    wp env (supervise respawn p) Q E R s := by
  intro n
  have hn := h n
  rcases hp : p env n s with ⟨a | e | c, n', s'⟩
  · simp only [hp] at hn
    simpa only [supervise, hp] using hn
  · simp only [hp] at hn
    simpa only [supervise, hp] using hn
  · simp only [hp] at hn
    cases c with
    | down => simpa only [supervise, hp, supervised] using hn
    | crash => simpa only [supervise, hp, supervised] using hn

/-- The place and the state that a program leaves, however it ends. -/
def left (p : Prog ω σ ε α) (env : Env ω) (at_ : ℕ × σ) : ℕ × σ := (p env at_.1 at_.2).2

theorem wp.left {I : σ → Prop} {p : Prog ω σ ε α} (h : wp env p (fun _ => I) (fun _ => I) (fun _ => I) s)
    (n : ℕ) : I (p.left env (n, s)).2 := by
  have hn := h n
  rcases hp : p env n s with ⟨a | e | c, n', s'⟩ <;> rw [hp] at hn <;>
    simpa only [Prog.left, hp] using hn

end Prog

end ScpCore
