import ScpCore.ClampedLevel
import ScpCore.Saturating

/-! The hard rate limit: one token bucket per sender, refilled by elapsed time and clamped at
the burst, through refunds and through snapshots. -/

namespace ScpCore.RateLimit
open ClampedLevel

abbrev Did := String

structure HardRateLimitConfig where
  refillPerKilosec : ℕ
  burst : ℕ
  deriving DecidableEq

inductive SnapshotValidationError
  | invalidBurst
  | invalidRefillRate (rate : ℕ)
  deriving DecidableEq

namespace HardRateLimitConfig

def maxRefillPerKilosec : ℕ := 1000000

def validate (config : HardRateLimitConfig) : Except SnapshotValidationError Unit :=
  if config.burst = 0 then .error .invalidBurst
  else if config.refillPerKilosec = 0 || maxRefillPerKilosec < config.refillPerKilosec then
    .error (.invalidRefillRate config.refillPerKilosec)
  else .ok ()

end HardRateLimitConfig

/-- Milli-tokens and the time of the last refill. -/
structure Bucket where
  tokensMilli : ℕ
  lastRefill : ℕ
  deriving DecidableEq

abbrev Entries := Did → Option Bucket

structure TokenBucketLimiter where
  state : Entries
  config : HardRateLimitConfig

namespace TokenBucketLimiter

def new (config : HardRateLimitConfig) : TokenBucketLimiter := ⟨fun _ => none, config⟩

def burstMilli (config : HardRateLimitConfig) : ℕ := saturatingMul config.burst 1000

/-- The refilled bucket, before a token is taken. -/
def refilled (config : HardRateLimitConfig) (entry : Bucket) (now : ℕ) : Bucket :=
  let effectiveNow := max now entry.lastRefill
  let elapsed := effectiveNow-entry.lastRefill
  let refill := saturatingMul elapsed config.refillPerKilosec
  ⟨min (saturatingAdd entry.tokensMilli refill) (burstMilli config), effectiveNow⟩

def put (limiter : TokenBucketLimiter) (sender : Did) (entry : Bucket) : TokenBucketLimiter :=
  { limiter with state := Function.update limiter.state sender (some entry) }

def tryConsume (limiter : TokenBucketLimiter) (sender : Did) (now : ℕ) :
    Bool × TokenBucketLimiter :=
  let entry := (limiter.state sender).getD ⟨burstMilli limiter.config, now⟩
  let entry := refilled limiter.config entry now
  if 1000 ≤ entry.tokensMilli then
    (true, limiter.put sender ⟨entry.tokensMilli-1000, entry.lastRefill⟩)
  else (false, limiter.put sender entry)

def refund (limiter : TokenBucketLimiter) (sender : Did) : TokenBucketLimiter :=
  match limiter.state sender with
  | none => limiter
  | some entry => limiter.put sender
      ⟨min (saturatingAdd entry.tokensMilli 1000) (burstMilli limiter.config), entry.lastRefill⟩

def snapshotEntries (limiter : TokenBucketLimiter) : Entries := limiter.state

def sanitizeEntry (config : HardRateLimitConfig) (now clockSkewTolerance : ℕ) (entry : Bucket) :
    Bucket where
  tokensMilli := min entry.tokensMilli (burstMilli config)
  lastRefill :=
    if saturatingAdd now clockSkewTolerance < entry.lastRefill then now else entry.lastRefill

def validateAndSanitizeSnapshot (entries : Entries) (config : HardRateLimitConfig)
    (now clockSkewTolerance : ℕ) : Entries :=
  fun did => (entries did).map (sanitizeEntry config now clockSkewTolerance)

def fromSnapshot (config : HardRateLimitConfig) (entries : Entries) : TokenBucketLimiter :=
  ⟨entries, config⟩

end TokenBucketLimiter

open TokenBucketLimiter

/-- A limiter and the snapshot that is being kept of it. -/
structure World where
  limiter : TokenBucketLimiter
  saved : Entries

def World.new (config : HardRateLimitConfig) : World := ⟨.new config, fun _ => none⟩

inductive Op
  | tryConsume (did : Did) (now : ℕ)
  | refund (did : Did)
  | snapshotEntries
  | validateAndSanitizeSnapshot (now clockSkewTolerance : ℕ)
  | fromSnapshot

def World.step (w : World) : Op → World
  | .tryConsume did now => { w with limiter := (w.limiter.tryConsume did now).2 }
  | .refund did => { w with limiter := w.limiter.refund did }
  | .snapshotEntries => { w with saved := w.limiter.snapshotEntries }
  | .validateAndSanitizeSnapshot now tolerance => { w with
      saved := TokenBucketLimiter.validateAndSanitizeSnapshot w.saved w.limiter.config now
        tolerance }
  | .fromSnapshot => { w with limiter := .fromSnapshot w.limiter.config w.saved }

/-- A call of the sender, what it returned and how many refunds followed before the next. -/
structure Call where
  time : ℕ
  admitted : Bool
  refunds : ℕ

/-- The refunds of the sender up to its next call. -/
def refundsBefore (sender : Did) : List Op → ℕ
  | [] => 0
  | .tryConsume did _ :: ops => if did = sender then 0 else refundsBefore sender ops
  | .refund did :: ops => (if did = sender then 1 else 0)+refundsBefore sender ops
  | _ :: ops => refundsBefore sender ops

def calls (sender : Did) : World → List Op → List Call
  | _, [] => []
  | w, op :: ops =>
    (match op with
      | .tryConsume did now => if did = sender then
          [⟨now, (w.limiter.tryConsume did now).1, refundsBefore sender ops⟩] else []
      | _ => []) ++ calls sender (w.step op) ops

def admitted (calls : List Call) : ℕ := calls.countP Call.admitted

def refunds (calls : List Call) : ℕ := (calls.map Call.refunds).sum

theorem burstMilli_le (config : HardRateLimitConfig) : burstMilli config ≤ u64Max :=
  min_le_right _ _

/-- Saturation is never seen: what saturates is above the burst. -/
theorem refilled_eq (config : HardRateLimitConfig) (entry : Bucket) {now : ℕ}
    (h : entry.lastRefill ≤ now) :
    refilled config entry now = ⟨min (burstMilli config)
      (entry.tokensMilli+config.refillPerKilosec*(now-entry.lastRefill)), now⟩ := by
  have hcap := burstMilli_le config
  have hmax : max now entry.lastRefill = now := max_eq_left h
  simp only [refilled, hmax, saturatingAdd, saturatingMul, Bucket.mk.injEq, and_true]
  rw [mul_comm config.refillPerKilosec]
  omega

/-- What the limiter knows of a sender. One with no entry is one with a full bucket. -/
def Stands (cap : ℕ) (entry : Option Bucket) (bucket : Bucket) : Prop :=
  entry = some bucket ∨ entry = none ∧ bucket.tokensMilli = cap

/-- The tokens a call finds. -/
def available (config : HardRateLimitConfig) (bucket : Bucket) (pending now : ℕ) : ℕ :=
  min (burstMilli config)
    (bucket.tokensMilli+1000*pending+config.refillPerKilosec*(now-bucket.lastRefill))

/-- The bucket a call leaves. -/
def drawn (config : HardRateLimitConfig) (bucket : Bucket) (pending now : ℕ) : Bucket :=
  ⟨available config bucket pending now-
    if 1000 ≤ available config bucket pending now then 1000 else 0, now⟩

theorem Stands.tryConsume {limiter : TokenBucketLimiter} {sender : Did} {bucket : Bucket}
    {now : ℕ} (h : Stands (burstMilli limiter.config) (limiter.state sender) bucket)
    (hnow : bucket.lastRefill ≤ now) :
    limiter.tryConsume sender now = (decide (1000 ≤ available limiter.config bucket 0 now),
      limiter.put sender (drawn limiter.config bucket 0 now)) := by
  have hentry : refilled limiter.config
      ((limiter.state sender).getD ⟨burstMilli limiter.config, now⟩) now =
      ⟨available limiter.config bucket 0 now, now⟩ := by
    obtain hsome | ⟨hnone, hfull⟩ := h
    · rw [hsome, Option.getD_some, refilled_eq limiter.config bucket hnow]
      rfl
    · rw [hnone, Option.getD_none, refilled_eq limiter.config _ (le_refl now)]
      simp only [available, hfull, Bucket.mk.injEq, and_true]
      omega
  unfold TokenBucketLimiter.tryConsume
  simp only [hentry, drawn]
  split <;> simp [*]

theorem Stands.refund {limiter : TokenBucketLimiter} {sender : Did} {bucket : Bucket}
    (h : Stands (burstMilli limiter.config) (limiter.state sender) bucket) :
    Stands (burstMilli limiter.config) ((limiter.refund sender).state sender)
      ⟨min (burstMilli limiter.config) (bucket.tokensMilli+1000), bucket.lastRefill⟩ := by
  have hcap := burstMilli_le limiter.config
  obtain hsome | ⟨hnone, hfull⟩ := h
  · left
    simp only [TokenBucketLimiter.refund, hsome, put, Function.update_self, saturatingAdd,
      Option.some.injEq, Bucket.mk.injEq, and_true]
    omega
  · right
    simp [TokenBucketLimiter.refund, hnone, hfull]

/-- The calls draw from one bucket, with the refunds between them. -/
def Follows (config : HardRateLimitConfig) : Bucket → ℕ → List Call → Prop
  | _, _, [] => True
  | bucket, pending, c :: cs =>
    bucket.lastRefill ≤ c.time ∧
      c.admitted = decide (1000 ≤ available config bucket pending c.time) ∧
      Follows config (drawn config bucket pending c.time) c.refunds cs

theorem Follows.congr {config : HardRateLimitConfig} {a b : Bucket} {p q : ℕ} {cs : List Call}
    (hlast : a.lastRefill = b.lastRefill)
    (h : ∀ now, available config a p now = available config b q now)
    (hf : Follows config a p cs) : Follows config b q cs := by
  cases cs with
  | nil => exact trivial
  | cons c cs =>
    obtain ⟨htime, hadmitted, hrest⟩ := hf
    refine ⟨hlast ▸ htime, h c.time ▸ hadmitted, ?_⟩
    rw [drawn, h c.time] at hrest
    exact hrest

/-- The sender's bucket in a world, within the burst and in the snapshot if that is current. -/
structure Holds (config : HardRateLimitConfig) (sender : Did) (w : World) (bucket : Bucket)
    (current : Bool) : Prop where
  configured : w.limiter.config = config
  stands : Stands (burstMilli config) (w.limiter.state sender) bucket
  full : bucket.tokensMilli ≤ burstMilli config
  saved : current = true → w.saved sender = w.limiter.state sender

namespace Holds
variable {config : HardRateLimitConfig} {sender did : Did} {w : World} {bucket : Bucket}
  {current : Bool} {now : ℕ}

theorem snapshotEntries (h : Holds config sender w bucket current) :
    Holds config sender (w.step .snapshotEntries) bucket true :=
  ⟨h.configured, h.stands, h.full, fun _ => rfl⟩

theorem fromSnapshot (h : Holds config sender w bucket true) :
    Holds config sender (w.step .fromSnapshot) bucket true := by
  have hsaved := h.saved rfl
  exact ⟨h.configured, by simpa only [World.step, TokenBucketLimiter.fromSnapshot, hsaved] using h.stands,
    h.full, fun _ => rfl⟩

end Holds

def movesOf (config : HardRateLimitConfig) : ℕ → ℕ → List Call → List Move
  | _, _, [] => []
  | last, pending, c :: cs =>
    ⟨1000*pending+config.refillPerKilosec*(c.time-last), if c.admitted then 1000 else 0⟩ ::
      movesOf config c.time c.refunds cs

namespace Follows
variable {config : HardRateLimitConfig} {bucket : Bucket} {pending : ℕ} {pre post : List Call}
  {c : Call}

theorem drop (h : Follows config bucket pending (pre ++ c :: post)) {j : ℕ}
    (hj : j < pre.length) : ∃ tokens, Follows config ⟨tokens, pre[j].time⟩ pre[j].refunds
      (pre.drop (j+1) ++ c :: post) := by
  induction pre generalizing bucket pending j with
  | nil => cases hj
  | cons d pre ih =>
    cases j with
    | zero => exact ⟨_, h.2.2⟩
    | succ j => exact ih h.2.2 (Nat.lt_of_succ_lt_succ hj)

/-- The tokens the next call finds are the level that the calls before it leave. -/
theorem covered (h : Follows config bucket pending (pre ++ c :: post)) :
    Covered (burstMilli config) bucket.tokensMilli
        (movesOf config bucket.lastRefill pending pre) ∧
      ∃ gain, movesOf config bucket.lastRefill pending (pre ++ [c]) =
          movesOf config bucket.lastRefill pending pre ++
            [⟨gain, if c.admitted then 1000 else 0⟩] ∧
        c.admitted = decide (1000 ≤ min (burstMilli config) (level (burstMilli config)
          bucket.tokensMilli (movesOf config bucket.lastRefill pending pre)+gain)) := by
  induction pre generalizing bucket pending with
  | nil =>
    obtain ⟨-, hadmitted, -⟩ := h
    refine ⟨trivial, _, rfl, ?_⟩
    rw [hadmitted, available, movesOf, level, add_assoc]
  | cons d pre ih =>
    obtain ⟨-, hadmitted, hrest⟩ := h
    obtain ⟨hcovered, gain, hmoves, hc⟩ := ih hrest
    have hcost : (if d.admitted = true then 1000 else 0) =
        if 1000 ≤ available config bucket pending d.time then 1000 else 0 := by
      rw [hadmitted]
      simp
    have hlevel : min (burstMilli config) (bucket.tokensMilli+
          (1000*pending+config.refillPerKilosec*(d.time-bucket.lastRefill)))-
        (if d.admitted = true then 1000 else 0) =
        (drawn config bucket pending d.time).tokensMilli := by
      rw [hcost, drawn, available, add_assoc]
    refine ⟨⟨?_, ?_⟩, gain, ?_, ?_⟩
    · dsimp only
      rw [hcost, ← add_assoc]
      change _ ≤ available config bucket pending d.time
      split <;> omega
    · dsimp only
      rw [hlevel]
      exact hcovered
    · rw [List.cons_append, movesOf]
      exact congrArg _ hmoves
    · rw [hc, movesOf, level, hlevel]
      rfl

end Follows

/-- Three calls at a burst of two: the third is refused, also from the restored limiter, and
a fourth is let in once three seconds have refilled. -/
def sampleOps : List Op :=
  [.tryConsume "alice" 10, .tryConsume "bob" 3, .tryConsume "alice" 10, .snapshotEntries,
    .tryConsume "bob" 11, .validateAndSanitizeSnapshot 12 5, .fromSnapshot,
    .tryConsume "alice" 12, .tryConsume "alice" 13]

end ScpCore.RateLimit
