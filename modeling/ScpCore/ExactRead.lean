import Mathlib

/-! Readers over byte strings that accept exactly the encodings of the values
they return. A reader is a function from the unread bytes to a value and the
bytes after it; `Exact` states both directions of its round trip at once. -/

namespace ScpCore

abbrev Bytes := List UInt8

-- Membership tests among byte strings and among digests rest on these two constants.
instance instLawfulBEqBytes : LawfulBEq Bytes := inferInstance

instance instLawfulBEqDigest : LawfulBEq (BitVec 256) := inferInstance

section Result
variable {ε α β : Type}

@[simp] theorem bind_ok_iff (x : Except ε α) (f : α → Except ε β) (b : β) :
    (x >>= f) = .ok b ↔ ∃ a, x = .ok a ∧ f a = .ok b := by
  cases x with
  | error e => simp [bind, Except.bind]
  | ok a => simp [bind, Except.bind]

@[simp] theorem exists_unit_iff (p : Unit → Prop) : (∃ u, p u) ↔ p () :=
  ⟨fun ⟨_, h⟩ => h, fun h => ⟨(), h⟩⟩

@[simp] theorem pure_ok_iff (a b : α) : (pure a : Except ε α) = .ok b ↔ a = b := by
  simp [pure, Except.pure]

@[simp] theorem throw_ne_ok (e : ε) (b : α) : ¬ (throw e : Except ε α) = .ok b := by
  simp [throw, throwThe, MonadExceptOf.throw]

@[simp] theorem mapError_ok_iff {ε' : Type} (f : ε → ε') (x : Except ε α) (b : α) :
    x.mapError f = .ok b ↔ x = .ok b := by
  cases x <;> simp [Except.mapError]

theorem bind_error_iff (x : Except ε α) (f : α → Except ε β) (e : ε) :
    (x >>= f) = .error e ↔ x = .error e ∨ ∃ a, x = .ok a ∧ f a = .error e := by
  cases x with
  | error e' => simp [bind, Except.bind]
  | ok a => simp [bind, Except.bind]

theorem pure_ne_error (a : α) (e : ε) : ¬ (pure a : Except ε α) = .error e := by
  simp [pure, Except.pure]

theorem mapError_error_iff {ε' : Type} (f : ε → ε') (x : Except ε α) (e' : ε') :
    x.mapError f = .error e' ↔ ∃ e, x = .error e ∧ f e = e' := by
  cases x <;> simp [Except.mapError]

theorem bind_error_cases {x : Except ε α} {f : α → Except ε β} {e : ε}
    (h : (x >>= f) = .error e) : x = .error e ∨ ∃ a, x = .ok a ∧ f a = .error e :=
  (bind_error_iff x f e).mp h

/-- `e` is the only error of `x`. -/
def FailsOnlyWith (e : ε) (x : Except ε α) : Prop := ∀ e', x = .error e' → e' = e

namespace FailsOnlyWith
variable {e : ε} {x : Except ε α}

theorem of_ok {a : α} (h : x = .ok a) : FailsOnlyWith e x := by
  intro e' he
  rw [h] at he
  cases he

theorem cases (h : FailsOnlyWith e x) : x = .error e ∨ ∃ a, x = .ok a := by
  cases hx : x with
  | error e' => exact .inl (by rw [h e' hx])
  | ok a => exact .inr ⟨a, rfl⟩

theorem bind {f : α → Except ε β} (hx : FailsOnlyWith e x)
    (hf : ∀ a, x = .ok a → FailsOnlyWith e (f a)) : FailsOnlyWith e (x >>= f) := by
  intro e' he
  rcases bind_error_cases he with he | ⟨a, ha, he⟩
  · exact hx e' he
  · exact hf a ha e' he

theorem mapError {ε' : Type} (f : ε → ε') (h : FailsOnlyWith e x) :
    FailsOnlyWith (f e) (x.mapError f) := by
  rcases h.cases with hx | ⟨a, hx⟩
  · intro e' he
    rw [hx] at he
    cases he
    rfl
  · apply of_ok (a := a)
    rw [hx]
    rfl

theorem map (f : α → β) (h : FailsOnlyWith e x) : FailsOnlyWith e (x.map f) := by
  rcases h.cases with hx | ⟨a, hx⟩
  · intro e' he
    rw [hx] at he
    cases he
    rfl
  · apply of_ok (a := f a)
    rw [hx]
    rfl

end FailsOnlyWith

/-- The value of an option, or the error `e` in place of a missing one. -/
def okOr (o : Option α) (e : ε) : Except ε α := o.elim (.error e) .ok

@[simp] theorem okOr_ok_iff (o : Option α) (e : ε) (a : α) : okOr o e = .ok a ↔ o = some a := by
  cases o <;> simp [okOr]

/-- The value of a result known to be one. -/
def okGet (x : Except ε α) (h : x.toOption.isSome = true) : α := x.toOption.get h

theorem eq_okGet (x : Except ε α) (h : x.toOption.isSome = true) : x = .ok (okGet x h) := by
  cases x with
  | error e => cases h
  | ok a => rfl

/-- A check that fails with `e` unless `c` holds. -/
def require (c : Bool) (e : ε) : Except ε Unit := if c then .ok () else .error e

@[simp] theorem require_ok_iff (c : Bool) (e : ε) (u : Unit) :
    require c e = .ok u ↔ c = true := by
  cases c <;> simp [require]

theorem require_error_iff (c : Bool) (e e' : ε) :
    require c e = .error e' ↔ c = false ∧ e = e' := by
  cases c <;> simp [require]

/-- Run `f` on each entry in order and stop at the first failure. -/
def checkEach (f : α → Except ε Unit) : List α → Except ε Unit
  | [] => .ok ()
  | a :: as => do
    f a
    checkEach f as

@[simp] theorem checkEach_ok_iff (f : α → Except ε Unit) (as : List α) (u : Unit) :
    checkEach f as = .ok u ↔ ∀ a ∈ as, f a = .ok () := by
  induction as with
  | nil => simp [checkEach]
  | cons a as ih => simp [checkEach, ih]

/-- Collect `f` over the entries in order, stopping at the first failure. -/
def mapEach (f : α → Except ε β) : List α → Except ε (List β)
  | [] => .ok []
  | a :: as => do
    let b ← f a
    let bs ← mapEach f as
    pure (b :: bs)

@[simp] theorem mapEach_ok_iff (f : α → Except ε β) (as : List α) (bs : List β) :
    mapEach f as = .ok bs ↔ List.Forall₂ (fun a b => f a = .ok b) as bs := by
  induction as generalizing bs with
  | nil => simp [mapEach, eq_comm]
  | cons a as ih =>
    simp only [mapEach, bind_ok_iff, pure_ok_iff, ih, List.forall₂_cons_left_iff]
    constructor
    · rintro ⟨b, hb, cs, hcs, rfl⟩
      exact ⟨b, cs, hb, hcs, rfl⟩
    · rintro ⟨b, cs, hb, hcs, rfl⟩
      exact ⟨b, hb, cs, hcs, rfl⟩

theorem mapEach_mem_right {f : α → Except ε β} {as : List α} {bs : List β}
    (h : mapEach f as = .ok bs) {b : β} (hb : b ∈ bs) : ∃ a ∈ as, f a = .ok b := by
  rw [mapEach_ok_iff] at h
  induction h with
  | nil => simp at hb
  | cons hab _ ih =>
    rcases List.mem_cons.mp hb with rfl | hb
    · exact ⟨_, by simp, hab⟩
    · obtain ⟨a, ha, hf⟩ := ih hb
      exact ⟨a, by simp [ha], hf⟩

theorem mapEach_mem_left {f : α → Except ε β} {as : List α} {bs : List β}
    (h : mapEach f as = .ok bs) {a : α} (ha : a ∈ as) : ∃ b ∈ bs, f a = .ok b := by
  rw [mapEach_ok_iff] at h
  induction h with
  | nil => simp at ha
  | cons hab _ ih =>
    rcases List.mem_cons.mp ha with rfl | ha
    · exact ⟨_, by simp, hab⟩
    · obtain ⟨b, hb, hf⟩ := ih ha
      exact ⟨b, by simp [hb], hf⟩

/-- Where `f` accepts `a` exactly when `ok a` holds and then returns `g a`. -/
theorem mapEach_ok_iff_map {f : α → Except ε β} {ok : α → Prop} {g : α → β}
    (h : ∀ a b, f a = .ok b ↔ ok a ∧ b = g a) (as : List α) (bs : List β) :
    mapEach f as = .ok bs ↔ (∀ a ∈ as, ok a) ∧ bs = as.map g := by
  simp only [mapEach_ok_iff, h]
  induction as generalizing bs with
  | nil => simp [List.forall₂_nil_left_iff]
  | cons a as ih =>
    simp only [List.forall₂_cons_left_iff, ih, List.forall_mem_cons, List.map_cons]
    constructor
    · rintro ⟨b, cs, ⟨ha, rfl⟩, ⟨has, rfl⟩, rfl⟩
      exact ⟨⟨ha, has⟩, rfl⟩
    · rintro ⟨⟨ha, has⟩, rfl⟩
      exact ⟨g a, as.map g, ⟨ha, rfl⟩, ⟨has, rfl⟩, rfl⟩

theorem mapEach_eq_ok {f : α → Except ε β} {g : α → β} {l : List α}
    (h : ∀ a ∈ l, f a = .ok (g a)) : mapEach f l = .ok (l.map g) := by
  rw [mapEach_ok_iff]
  induction l with
  | nil => exact List.Forall₂.nil
  | cons a l ih =>
    have ha := h a List.mem_cons_self
    exact List.Forall₂.cons ha (ih (fun x hx => h x (List.mem_cons_of_mem a hx)))

theorem mapEach_exists_ok {f : α → Except ε β} {R : α → β → Prop} {as : List α}
    (h : ∀ a ∈ as, ∃ b, f a = .ok b ∧ R a b) :
    ∃ bs, mapEach f as = .ok bs ∧ List.Forall₂ R as bs := by
  simp only [mapEach_ok_iff]
  induction as with
  | nil => exact ⟨[], List.Forall₂.nil, List.Forall₂.nil⟩
  | cons a as ih =>
    obtain ⟨b, hf, hR⟩ := h a List.mem_cons_self
    obtain ⟨bs, hfs, hRs⟩ := ih (fun x hx => h x (List.mem_cons_of_mem a hx))
    exact ⟨b :: bs, List.Forall₂.cons hf hfs, List.Forall₂.cons hR hRs⟩

/-- Where `f` returns `b` exactly on `g b`. -/
theorem mapEach_ok_iff_inverse {f : α → Except ε β} {g : β → α}
    (h : ∀ a b, f a = .ok b ↔ a = g b) (as : List α) (bs : List β) :
    mapEach f as = .ok bs ↔ as = bs.map g := by
  simp only [mapEach_ok_iff, h]
  induction as generalizing bs with
  | nil => cases bs <;> simp
  | cons a as ih =>
    cases bs with
    | nil => simp
    | cons b bs => simp [ih]

/-- Fails with `err a` at the first entry whose key an earlier one has, or `seen` holds. -/
def checkDistinct {κ : Type} [DecidableEq κ] (key : α → Option κ) (err : α → ε) :
    List κ → List α → Except ε Unit
  | _, [] => .ok ()
  | seen, a :: as => match key a with
    | none => checkDistinct key err seen as
    | some k => do
      require (k ∉ seen) (err a)
      checkDistinct key err (k :: seen) as

theorem checkDistinct_ok_iff {κ : Type} [DecidableEq κ] (key : α → Option κ) (err : α → ε)
    (seen : List κ) (as : List α) (u : Unit) :
    checkDistinct key err seen as = .ok u ↔
      (as.filterMap key).Nodup ∧ ∀ k ∈ as.filterMap key, k ∉ seen := by
  induction as generalizing seen with
  | nil => simp [checkDistinct]
  | cons a as ih =>
    unfold checkDistinct
    cases hk : key a with
    | none => simp [hk, ih]
    | some k =>
      simp only [bind_ok_iff, exists_unit_iff, require_ok_iff, decide_eq_true_eq, ih,
        List.filterMap_cons, hk, List.nodup_cons, List.mem_cons, not_or]
      constructor
      · rintro ⟨hseen, hnd, hall⟩
        refine ⟨⟨fun hm => (hall k hm).1 rfl, hnd⟩, ?_⟩
        rintro j (rfl | hj)
        · exact hseen
        · exact (hall j hj).2
      · rintro ⟨⟨hkm, hnd⟩, hall⟩
        refine ⟨hall k (Or.inl rfl), hnd, fun j hj => ⟨?_, hall j (Or.inr hj)⟩⟩
        rintro rfl
        exact hkm hj

end Result

/-- The `n` big-endian bytes of `x`, its bytes above them dropped. -/
def beBytes : ℕ → ℕ → Bytes
  | 0, _ => []
  | n+1, x => UInt8.ofNat (x/256^n) :: beBytes n x

/-- The number a big-endian byte string spells. -/
def beNat (b : Bytes) : ℕ := b.foldl (fun n u => 256*n+u.toNat) 0

@[simp] theorem beBytes_length (n x : ℕ) : (beBytes n x).length = n := by
  induction n with
  | zero => rfl
  | succ n ih => simp [beBytes, ih]

theorem foldl_be (b : Bytes) (a : ℕ) :
    b.foldl (fun n u => 256*n+u.toNat) a = a*256^b.length+beNat b := by
  induction b generalizing a with
  | nil => simp [beNat]
  | cons u b ih =>
    have h0 : beNat (u :: b) = (256*0+u.toNat)*256^b.length+beNat b := by
      unfold beNat
      rw [List.foldl_cons, ih]
      rfl
    rw [List.foldl_cons, ih, h0, List.length_cons, pow_succ]
    ring

theorem beNat_cons (u : UInt8) (b : Bytes) :
    beNat (u :: b) = u.toNat*256^b.length+beNat b := by
  unfold beNat
  rw [List.foldl_cons, foldl_be]
  simp [beNat]

theorem beNat_lt (b : Bytes) : beNat b < 256^b.length := by
  induction b with
  | nil => simp [beNat]
  | cons u b ih =>
    rw [beNat_cons, List.length_cons, pow_succ]
    have hu : u.toNat < 256 := u.toNat_lt
    nlinarith [pow_pos (show 0 < 256 by norm_num) b.length]

theorem beBytes_mod (n k x : ℕ) (hk : n ≤ k) : beBytes n (x%256^k) = beBytes n x := by
  induction n with
  | zero => rfl
  | succ n ih =>
    have hq : (x%256^k)/256^n%256 = x/256^n%256 := by
      have hs : (256:ℕ)^k = 256^n*256^(k-n) := by rw [← pow_add]; congr 1; omega
      rw [hs, Nat.mod_mul_right_div_self]
      exact Nat.mod_mod_of_dvd _ (dvd_pow_self 256 (by omega))
    rw [beBytes, beBytes, ih (by omega)]
    congr 1
    apply UInt8.toNat_inj.mp
    simpa using hq

theorem beNat_beBytes (n x : ℕ) : beNat (beBytes n x) = x%256^n := by
  induction n generalizing x with
  | zero => simp [beBytes, beNat, Nat.mod_one]
  | succ n ih =>
    rw [beBytes, beNat_cons, beBytes_length, ih]
    have hu : (UInt8.ofNat (x/256^n)).toNat = x/256^n%256 := by simp
    rw [hu, pow_succ, Nat.mod_mul]
    ring

theorem beBytes_beNat (b : Bytes) : beBytes b.length (beNat b) = b := by
  induction b with
  | nil => rfl
  | cons u b ih =>
    have hp : 0 < 256^b.length := pow_pos (by norm_num) _
    have hq : beNat (u :: b)/256^b.length = u.toNat := by
      rw [beNat_cons, Nat.add_comm, Nat.add_mul_div_right _ _ hp,
        Nat.div_eq_of_lt (beNat_lt b), zero_add]
    have hr : beBytes b.length (beNat (u :: b)) = b := by
      rw [← beBytes_mod b.length b.length (beNat (u :: b)) le_rfl, beNat_cons,
        Nat.add_comm, Nat.add_mul_mod_self_right, Nat.mod_eq_of_lt (beNat_lt b), ih]
    rw [List.length_cons, beBytes, hq, hr, UInt8.ofNat_toNat]

section Readers
variable {ε α β : Type}

/-- `read` succeeds exactly on the strings that begin with `enc x` for an `x`
that `ok` admits, and returns that `x` with the bytes after it. -/
def Exact (read : Bytes → Except ε (α × Bytes)) (ok : α → Prop) (enc : α → Bytes) : Prop :=
  ∀ b x r, read b = .ok (x, r) ↔ ok x ∧ b = enc x ++ r

theorem Exact.injective {read : Bytes → Except ε (α × Bytes)} {ok : α → Prop} {enc : α → Bytes}
    (h : Exact read ok enc) {x y : α} (hx : ok x) (hy : ok y) (he : enc x = enc y) : x = y := by
  have h1 := (h (enc x) x []).mpr ⟨hx, by simp⟩
  have h2 := (h (enc x) y []).mpr ⟨hy, by simp [he]⟩
  exact (Prod.mk.inj (Except.ok.inj (h1.symm.trans h2))).1

/-- The first `n` bytes, or `e` where fewer remain. -/
def readBytes (n : ℕ) (e : ε) (b : Bytes) : Except ε (Bytes × Bytes) :=
  if n ≤ b.length then .ok (b.take n, b.drop n) else .error e

/-- An `n`-byte big-endian word. -/
def readBe (n : ℕ) (e : ε) (b : Bytes) : Except ε (BitVec (8*n) × Bytes) := do
  let (taken, rest) ← readBytes n e b
  pure (BitVec.ofNat (8*n) (beNat taken), rest)

/-- One byte. -/
def readU8 (e : ε) : Bytes → Except ε (UInt8 × Bytes)
  | [] => .error e
  | u :: b => .ok (u, b)

/-- One value read for each key in turn. -/
def readEach {κ : Type} (read : κ → Bytes → Except ε (α × Bytes)) :
    List κ → Bytes → Except ε (List α × Bytes)
  | [], b => .ok ([], b)
  | k :: ks, b => do
    let (x, b) ← read k b
    let (xs, b) ← readEach read ks b
    pure (x :: xs, b)

/-- `n` values read one after another, the reader given each entry's index. -/
def readMany (read : ℕ → Bytes → Except ε (α × Bytes)) (n : ℕ) :
    Bytes → Except ε (List α × Bytes) :=
  readEach read (List.range n)

theorem readBytes_exact (n : ℕ) (e : ε) : Exact (readBytes n e) (·.length = n) id := by
  intro b x r
  unfold readBytes
  split
  · rename_i hn
    simp only [Except.ok.injEq, Prod.mk.injEq, id]
    constructor
    · rintro ⟨rfl, rfl⟩
      exact ⟨by simpa using hn, (List.take_append_drop n b).symm⟩
    · rintro ⟨hx, rfl⟩
      exact ⟨List.take_left' hx, List.drop_left' hx⟩
  · rename_i hn
    simp only [reduceCtorEq, id, false_iff, not_and]
    rintro hx rfl
    exact hn (by simp [hx])

theorem readBe_exact (n : ℕ) (e : ε) :
    Exact (readBe n e) (fun _ => True) (fun x => beBytes n x.toNat) := by
  intro b x r
  have hw : (256:ℕ)^n = 2^(8*n) := by rw [pow_mul]; norm_num
  simp only [readBe, bind_ok_iff, Prod.exists, (readBytes_exact n e) _ _ _, id, pure_ok_iff,
    Prod.mk.injEq, true_and]
  constructor
  · rintro ⟨t, r', ⟨ht, rfl⟩, rfl, rfl⟩
    have hlt := beNat_lt t
    rw [ht, hw] at hlt
    rw [BitVec.toNat_ofNat, Nat.mod_eq_of_lt hlt, ← ht, beBytes_beNat]
  · rintro rfl
    refine ⟨beBytes n x.toNat, r, ⟨beBytes_length _ _, rfl⟩, ?_, rfl⟩
    rw [beNat_beBytes, hw]
    apply BitVec.eq_of_toNat_eq
    rw [BitVec.toNat_ofNat, Nat.mod_mod, Nat.mod_eq_of_lt x.isLt]

theorem readU8_exact (e : ε) : Exact (readU8 e) (fun _ => True) (fun u => [u]) := by
  intro b u r
  cases b with
  | nil => simp [readU8]
  | cons v b => simp [readU8]

theorem readEach_exact {κ : Type} {read : κ → Bytes → Except ε (α × Bytes)}
    {ok : κ → α → Prop} {enc : α → Bytes} (h : ∀ k, Exact (read k) (ok k) enc) (ks : List κ) :
    Exact (readEach read ks) (List.Forall₂ ok ks) (·.flatMap enc) := by
  induction ks with
  | nil =>
    intro b xs r
    simp only [readEach, Except.ok.injEq, Prod.mk.injEq, List.forall₂_nil_left_iff]
    constructor
    · rintro ⟨rfl, rfl⟩
      simp
    · rintro ⟨rfl, rfl⟩
      simp
  | cons k ks ih =>
    intro b xs r
    simp only [readEach, bind_ok_iff, Prod.exists, h _ _ _ _, ih _ _ _, pure_ok_iff,
      Prod.mk.injEq, List.forall₂_cons_left_iff]
    constructor
    · rintro ⟨x, b', ⟨hx, rfl⟩, ys, b'', ⟨hys, rfl⟩, rfl, rfl⟩
      exact ⟨⟨x, ys, hx, hys, rfl⟩, by simp⟩
    · rintro ⟨⟨x, ys, hx, hys, rfl⟩, rfl⟩
      exact ⟨x, ys.flatMap enc ++ r, ⟨hx, by simp⟩, ys, r, ⟨hys, rfl⟩, rfl, rfl⟩

theorem forall₂_const_iff {κ : Type} (ok : α → Prop) (ks : List κ) (xs : List α) :
    List.Forall₂ (fun _ x => ok x) ks xs ↔ xs.length = ks.length ∧ ∀ x ∈ xs, ok x := by
  induction ks generalizing xs with
  | nil => simp +contextual [List.forall₂_nil_left_iff]
  | cons k ks ih =>
    cases xs with
    | nil => simp
    | cons x xs =>
      simp only [List.forall₂_cons, ih, List.length_cons, Nat.add_right_cancel_iff,
        List.forall_mem_cons]
      tauto

theorem readMany_exact {read : ℕ → Bytes → Except ε (α × Bytes)} {ok : α → Prop}
    {enc : α → Bytes} (h : ∀ i, Exact (read i) ok enc) (n : ℕ) :
    Exact (readMany read n) (fun xs => xs.length = n ∧ ∀ x ∈ xs, ok x) (·.flatMap enc) := by
  intro b xs r
  have he := readEach_exact h (List.range n) b xs r
  rwa [forall₂_const_iff, List.length_range] at he

end Readers

/-- Encodings of one width per entry have the width of the list times it. -/
theorem flatMap_length_const {α : Type*} (enc : α → Bytes) (w : ℕ) (xs : List α)
    (h : ∀ x ∈ xs, (enc x).length = w) : (xs.flatMap enc).length = xs.length*w := by
  induction xs with
  | nil => simp
  | cons x xs ih =>
    rw [List.flatMap_cons, List.length_append, h x (by simp), ih (fun y hy => h y (by simp [hy])),
      List.length_cons]
    ring

end ScpCore
