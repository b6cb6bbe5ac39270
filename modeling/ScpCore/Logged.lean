import Mathlib

/-! A fallible computation that keeps a log of the calls it makes. The log survives a
failure, and erasing it leaves the computation without one. -/

namespace ScpCore

/-- A result, and the calls made on the way to it. -/
structure Logged (ω ε α : Type) where
  result : Except ε α
  log : List ω

namespace Logged

variable {ω ε α β : Type}

/-- A computation that makes no call. -/
def silent (x : Except ε α) : Logged ω ε α := ⟨x, []⟩

/-- A computation that makes one call. -/
def call (w : ω) (a : α) : Logged ω ε α := ⟨.ok a, [w]⟩

instance : Monad (Logged ω ε) where
  pure a := ⟨.ok a, []⟩
  bind x f :=
    match x.result with
    | .error e => ⟨.error e, x.log⟩
    | .ok a => ⟨(f a).result, x.log ++ (f a).log⟩

/-- The failure of a computation in other words. -/
def mapError {ε' : Type} (f : ε → ε') (x : Logged ω ε α) : Logged ω ε' α := ⟨x.result.mapError f, x.log⟩

@[simp] theorem result_silent (x : Except ε α) : (silent x : Logged ω ε α).result = x := rfl

@[simp] theorem result_pure (a : α) : (pure a : Logged ω ε α).result = .ok a := rfl

@[simp] theorem result_mapError {ε' : Type} (f : ε → ε') (x : Logged ω ε α) :
    (x.mapError f).result = x.result.mapError f := rfl

@[simp] theorem result_bind (x : Logged ω ε α) (f : α → Logged ω ε β) :
    (x >>= f).result = x.result >>= fun a => (f a).result := by
  cases x with
  | mk result log =>
    cases result with
    | error e => rfl
    | ok a => rfl

theorem log_bind_ok {x : Logged ω ε α} {a : α} (h : x.result = .ok a) (f : α → Logged ω ε β) :
    (x >>= f).log = x.log ++ (f a).log := by
  cases x with
  | mk result log =>
    obtain rfl : result = .ok a := h
    rfl

/-- One computation for each element and its position, the logs in the order of the elements. -/
def mapEachFrom (f : ℕ → α → Logged ω ε β) : ℕ → List α → Logged ω ε (List β)
  | _, [] => pure []
  | n, a :: as => do
    let b ← f n a
    let bs ← mapEachFrom f (n+1) as
    pure (b :: bs)

end Logged

end ScpCore
