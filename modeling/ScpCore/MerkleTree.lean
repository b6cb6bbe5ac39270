import Mathlib

/-! Merkle trees over a list of leaves with an arbitrary pairing function. The
tree hash splits the leaves at the largest power of two below their number; the
layers pair neighbours bottom-up and promote an odd last node. The two agree. -/

namespace ScpCore.Merkle

/-- The largest power of two below `n`, for `n` at least two. -/
def split (n : ℕ) : ℕ := 2^Nat.log2 (n-1)

theorem split_pos (n : ℕ) : 0 < split n := Nat.two_pow_pos _

theorem split_lt {n : ℕ} (h : 2 ≤ n) : split n < n := by
  have hle : 2^Nat.log2 (n-1) ≤ n-1 := Nat.log2_self_le (by omega)
  unfold split
  omega

theorem le_two_mul_split {n : ℕ} (h : 2 ≤ n) : n ≤ 2*split n := by
  have hlt : n-1 < 2^(Nat.log2 (n-1)+1) := Nat.lt_log2_self
  unfold split
  rw [pow_succ] at hlt
  omega

/-- A power of two below `n` whose double reaches `n` is the split. -/
theorem split_eq {n j : ℕ} (h₁ : 2^j < n) (h₂ : n ≤ 2*2^j) : split n = 2^j := by
  have hj : Nat.log2 (n-1) = j := by
    rw [Nat.log2_eq_iff (by have := Nat.two_pow_pos j; omega), pow_succ]
    omega
  rw [split, hj]

/-- Halving the number of nodes halves the split. -/
theorem split_half {n : ℕ} (h : 3 ≤ n) : split n = 2*split ((n+1)/2) := by
  have hlt := split_lt (n := (n+1)/2) (by omega)
  have hle := le_two_mul_split (n := (n+1)/2) (by omega)
  have hpow : 2*split ((n+1)/2) = 2^(Nat.log2 ((n+1)/2-1)+1) := by
    rw [split, pow_succ, Nat.mul_comm]
  rw [hpow] at hle ⊢
  have hhalf : split ((n+1)/2) = 2^Nat.log2 ((n+1)/2-1) := rfl
  rw [hhalf] at hlt
  apply split_eq
  · rw [pow_succ]
    omega
  · omega

section Pair
variable {α : Type} (f : α → α → α)

/-- The Merkle tree hash of a leaf list: `e` for none, the leaf for one, and
else the pair of the hashes of the two parts. -/
def treeHash (e : α) (leaves : List α) : α :=
  if _ : 2 ≤ leaves.length then
    f (treeHash e (leaves.take (split leaves.length)))
      (treeHash e (leaves.drop (split leaves.length)))
  else leaves.headD e
termination_by leaves.length
decreasing_by
  · have := split_lt ‹2 ≤ leaves.length›
    rw [List.length_take]
    omega
  · have := split_pos leaves.length
    rw [List.length_drop]
    omega

variable {f} {e : α}

theorem treeHash_small {l : List α} (h : l.length < 2) :
    treeHash f e l = l.headD e := by
  rw [treeHash, dif_neg (by omega)]

@[simp] theorem treeHash_nil : treeHash f e [] = e := treeHash_small (by simp)

@[simp] theorem treeHash_singleton (a : α) : treeHash f e [a] = a :=
  treeHash_small (by simp)

theorem treeHash_split {l : List α} (h : 2 ≤ l.length) :
    treeHash f e l = f (treeHash f e (l.take (split l.length)))
      (treeHash f e (l.drop (split l.length))) := by
  rw [treeHash, dif_pos h]

variable (f)

/-- The nodes above a layer: neighbours paired, an odd last one promoted. -/
def pairUp : List α → List α
  | a :: b :: rest => f a b :: pairUp rest
  | [a] => [a]
  | [] => []

variable {f}

@[simp] theorem length_pairUp (l : List α) : (pairUp f l).length = (l.length+1)/2 := by
  fun_induction pairUp f l with
  | case1 a b rest ih =>
    simp only [List.length_cons, ih]
    omega
  | case2 a => simp
  | case3 => simp

/-- Pairing treats two parts apart where the first has an even length. -/
theorem pairUp_append {l r : List α} (h : l.length%2 = 0) :
    pairUp f (l ++ r) = pairUp f l ++ pairUp f r := by
  fun_induction pairUp f l with
  | case1 a b rest ih =>
    have hrest : rest.length%2 = 0 := by
      simp only [List.length_cons] at h
      omega
    simp [pairUp, ih hrest]
  | case2 a => simp at h
  | case3 => rfl

/-- One layer up, the tree hash is the same. -/
theorem treeHash_pairUp (leaves : List α) :
    treeHash f e (pairUp f leaves) = treeHash f e leaves := by
  -- Both parts of a split are shorter, and the first has an even length.
  induction hn : leaves.length using Nat.strong_induction_on generalizing leaves with
  | _ n ih =>
    by_cases hsmall : n < 3
    · match leaves with
      | [] => rfl
      | [a] => rfl
      | [a, b] =>
        have hone : split 2 = 1 := by decide
        have hsplit := treeHash_split (l := [a, b]) (f := f) (e := e) (by simp)
        rw [hsplit, List.length_cons, List.length_singleton, hone]
        simp [pairUp]
      | a :: b :: c :: rest =>
        simp only [List.length_cons] at hn
        omega
    · have hlt := split_lt (n := leaves.length) (by omega)
      have hpos := split_pos leaves.length
      have hhalf := split_half (n := leaves.length) (by omega)
      have hcut : pairUp f leaves = pairUp f (leaves.take (split leaves.length)) ++
          pairUp f (leaves.drop (split leaves.length)) := by
        have happ := pairUp_append (f := f) (l := leaves.take (split leaves.length))
          (r := leaves.drop (split leaves.length)) (by rw [List.length_take]; omega)
        rwa [List.take_append_drop] at happ
      have hlen : (pairUp f (leaves.take (split leaves.length))).length =
          split (pairUp f leaves).length := by
        rw [length_pairUp, length_pairUp, List.length_take]
        omega
      rw [treeHash_split (l := leaves) (by omega),
        treeHash_split (by rw [length_pairUp]; omega), ← hlen, hcut, List.take_left,
        List.drop_left,
        ih _ (by rw [List.length_take]; omega) _ rfl, ih _ (by rw [List.length_drop]; omega) _ rfl]

theorem treeHash_pair (a b : α) : treeHash f e [a, b] = f a b := by
  rw [← treeHash_pairUp]
  exact treeHash_singleton (f a b)

variable (f) in
/-- The layers above `l`, bottom-up to the one of a single node; `fuel` bounds
how many there are. -/
def layersWithin : ℕ → List α → List (List α)
  | 0, _ => []
  | fuel+1, l => if l.length ≤ 1 then [] else pairUp f l :: layersWithin fuel (pairUp f l)

variable (f) in
def layers (l : List α) : List (List α) := layersWithin f l.length l

theorem layersWithin_of_le {fuel : ℕ} {l : List α} (h : l.length ≤ fuel) :
    layersWithin f fuel l = layers f l := by
  -- More fuel than nodes changes nothing: each layer is shorter than the last.
  have hmore : ∀ (fuel fuel' : ℕ) (l : List α), l.length ≤ fuel → l.length ≤ fuel' →
      layersWithin f fuel l = layersWithin f fuel' l := by
    intro fuel
    induction fuel with
    | zero =>
      intro fuel' l h h'
      have hl : l.length ≤ 1 := by omega
      cases fuel' with
      | zero => rfl
      | succ fuel' => simp [layersWithin, hl]
    | succ fuel ih =>
      intro fuel' l h h'
      by_cases hl : l.length ≤ 1
      · cases fuel' with
        | zero => simp [layersWithin, hl]
        | succ fuel' => simp [layersWithin, hl]
      · cases fuel' with
        | zero => omega
        | succ fuel' =>
          have hlen := length_pairUp (f := f) l
          rw [layersWithin, layersWithin, if_neg hl, if_neg hl,
            ih fuel' (pairUp f l) (by omega) (by omega)]
  exact hmore fuel l.length l h le_rfl

theorem layers_small {l : List α} (h : l.length ≤ 1) : layers f l = [] := by
  unfold layers
  cases hn : l.length with
  | zero => rfl
  | succ n => rw [layersWithin, if_pos h]

theorem layers_cons {l : List α} (h : 2 ≤ l.length) :
    layers f l = pairUp f l :: layers f (pairUp f l) := by
  obtain ⟨n, hn⟩ : ∃ n, l.length = n+1 := ⟨l.length-1, by omega⟩
  have hlen := length_pairUp (f := f) l
  rw [layers, hn, layersWithin, if_neg (by omega), layersWithin_of_le (by omega)]

/-- What lies above the first layer. -/
theorem layers_tail (l : List α) : (layers f l).tail = layers f (pairUp f l) := by
  by_cases h : 2 ≤ l.length
  · rw [layers_cons h, List.tail_cons]
  · have hlen := length_pairUp (f := f) l
    rw [layers_small (by omega), layers_small (by omega), List.tail_nil]

/-- The single node of the last layer is the tree hash. -/
theorem layers_getLast {l : List α} (h : 2 ≤ l.length) :
    (layers f l).getLast? = some [treeHash f e l] := by
  induction hn : l.length using Nat.strong_induction_on generalizing l with
  | _ n ih =>
    have hlen := length_pairUp (f := f) l
    rw [layers_cons h]
    by_cases htop : (pairUp f l).length ≤ 1
    · obtain ⟨a, ha⟩ : ∃ a, pairUp f l = [a] := List.length_eq_one_iff.mp (by omega)
      rw [layers_small htop, ← treeHash_pairUp, ha]
      simp
    · rw [layers_cons (by omega), List.getLast?_cons_cons, ← layers_cons (by omega),
        ih _ (by omega) (by omega) rfl, treeHash_pairUp]

/-- The side of its parent a node is on. -/
inductive Side
  | left | right
  deriving DecidableEq

/-- The leaves under the node that `sides` lead to from the root, with the place
of the first of them; `none` where a leaf comes before the sides end. -/
def descend : List Side → List α → Option (ℕ × List α)
  | [], l => some (0, l)
  | side :: sides, l =>
    if l.length < 2 then none
    else match side with
      | .left => descend sides (l.take (split l.length))
      | .right => (descend sides (l.drop (split l.length))).map
          (fun t => (split l.length+t.1, t.2))

variable (f) in
/-- The hashes paired at the nodes of the tree over `l`. -/
def nodePairs (e : α) (l : List α) : List (α × α) :=
  if _ : 2 ≤ l.length then
    (treeHash f e (l.take (split l.length)), treeHash f e (l.drop (split l.length))) ::
      (nodePairs e (l.take (split l.length)) ++ nodePairs e (l.drop (split l.length)))
  else []
termination_by l.length
decreasing_by
  · have := split_lt ‹2 ≤ l.length›
    rw [List.length_take]
    omega
  · have := split_pos l.length
    rw [List.length_drop]
    omega

theorem nodePairs_split {l : List α} (h : 2 ≤ l.length) :
    nodePairs f e l =
      (treeHash f e (l.take (split l.length)), treeHash f e (l.drop (split l.length))) ::
        (nodePairs f e (l.take (split l.length)) ++ nodePairs f e (l.drop (split l.length))) := by
  rw [nodePairs, dif_pos h]

@[simp] theorem nodePairs_singleton (a : α) : nodePairs f e [a] = [] := by
  rw [nodePairs, dif_neg (by simp)]

theorem nodePairs_pair (a b : α) : nodePairs f e [a, b] = [(a, b)] := by
  have hsplit : split 2 = 1 := by decide
  rw [nodePairs_split (by simp)]
  simp only [List.length_cons, List.length_nil, Nat.zero_add, Nat.reduceAdd, hsplit]
  simp

theorem descend_small {side : Side} {sides : List Side} {l : List α} (h : l.length < 2) :
    descend (side :: sides) l = none := by
  cases side <;> rw [descend, if_pos h]

theorem descend_left {sides : List Side} {l : List α} (h : 2 ≤ l.length) :
    descend (.left :: sides) l = descend sides (l.take (split l.length)) := by
  rw [descend, if_neg (by omega)]

theorem descend_right {sides : List Side} {l : List α} (h : 2 ≤ l.length) :
    descend (.right :: sides) l = (descend sides (l.drop (split l.length))).map
      (fun t => (split l.length+t.1, t.2)) := by
  rw [descend, if_neg (by omega)]

/-- A node's leaves are a run of the list's. -/
theorem descend_spec {sides : List Side} {l sub : List α} {i : ℕ} (hne : l ≠ [])
    (h : descend sides l = some (i, sub)) :
    sub ≠ [] ∧ i+sub.length ≤ l.length ∧ ∀ j < sub.length, sub[j]? = l[i+j]? := by
  induction sides generalizing l i with
  | nil =>
    simp only [descend, Option.some.injEq, Prod.mk.injEq] at h
    obtain ⟨rfl, rfl⟩ := h
    exact ⟨hne, by omega, fun j _ => by rw [Nat.zero_add]⟩
  | cons side sides ih =>
    by_cases hlen : l.length < 2
    · rw [descend_small hlen] at h
      cases h
    · have hlt := split_lt (n := l.length) (by omega)
      have hpos := split_pos l.length
      cases side with
      | left =>
        rw [descend_left (by omega)] at h
        have hne' : l.take (split l.length) ≠ [] :=
          List.ne_nil_of_length_pos (by rw [List.length_take]; omega)
        obtain ⟨hsub, hle, hall⟩ := ih hne' h
        rw [List.length_take] at hle
        refine ⟨hsub, by omega, ?_⟩
        intro j hj
        rw [hall j hj, List.getElem?_take, if_pos (by omega)]
      | right =>
        have hne' : l.drop (split l.length) ≠ [] :=
          List.ne_nil_of_length_pos (by rw [List.length_drop]; omega)
        rw [descend_right (by omega)] at h
        obtain ⟨t, ht, hpair⟩ := Option.map_eq_some_iff.mp h
        rw [Prod.mk.injEq] at hpair
        obtain ⟨hsub, hle, hall⟩ := ih hne' (i := t.1) (by rw [ht, ← hpair.2])
        rw [List.length_drop] at hle
        refine ⟨hsub, by omega, ?_⟩
        intro j hj
        rw [hall j hj, List.getElem?_drop, ← hpair.1, Nat.add_assoc]

/-- The nodes under a node are nodes of the tree. -/
theorem descend_nodePairs {sides : List Side} {l sub : List α} {i : ℕ}
    (h : descend sides l = some (i, sub)) : nodePairs f e sub ⊆ nodePairs f e l := by
  induction sides generalizing l i with
  | nil =>
    simp only [descend, Option.some.injEq, Prod.mk.injEq] at h
    rw [h.2]
    exact List.Subset.refl _
  | cons side sides ih =>
    by_cases hlen : l.length < 2
    · rw [descend_small hlen] at h
      cases h
    · have hsplit := nodePairs_split (f := f) (e := e) (l := l) (by omega)
      intro p hp
      rw [hsplit]
      cases side with
      | left =>
        rw [descend_left (by omega)] at h
        simp [ih h hp]
      | right =>
        rw [descend_right (by omega)] at h
        obtain ⟨t, ht, hpair⟩ := Option.map_eq_some_iff.mp h
        rw [Prod.mk.injEq] at hpair
        have hmem := ih (i := t.1) (by rw [ht, ← hpair.2]) hp
        simp [hmem]

variable (f) in
/-- The hash a path of siblings leads to, lowest first. -/
def climb : α → List (Side × α) → α
  | x, [] => x
  | x, (.left, sibling) :: path => climb (f x sibling) path
  | x, (.right, sibling) :: path => climb (f sibling x) path

variable (f) in
/-- The pairs hashed along a path. -/
def climbPairs : α → List (Side × α) → List (α × α)
  | _, [] => []
  | x, (.left, sibling) :: path => (x, sibling) :: climbPairs (f x sibling) path
  | x, (.right, sibling) :: path => (sibling, x) :: climbPairs (f sibling x) path

theorem climb_append (x : α) (path rest : List (Side × α)) :
    climb f x (path ++ rest) = climb f (climb f x path) rest := by
  induction path generalizing x with
  | nil => rfl
  | cons step path ih =>
    obtain ⟨side, sibling⟩ := step
    cases side <;> exact ih _

theorem climbPairs_append (x : α) (path rest : List (Side × α)) :
    climbPairs f x (path ++ rest) = climbPairs f x path ++ climbPairs f (climb f x path) rest := by
  induction path generalizing x with
  | nil => rfl
  | cons step path ih =>
    obtain ⟨side, sibling⟩ := step
    cases side <;> simp [climbPairs, climb, ih]

/-- A path that climbs to the tree hash ends at a node of the tree: the one its
sides lead to from the root. The pairing has no collision among the pairs hashed,
and pairs to no leaf. -/
theorem climb_sound {seen : Set (α × α)} (hinj : Set.InjOn (fun p => f p.1 p.2) seen)
    {l : List α} (hne : l ≠ []) (hleaf : ∀ p ∈ seen, f p.1 p.2 ∉ l)
    (hlog : ∀ p ∈ nodePairs f e l, p ∈ seen) {x : α} {path : List (Side × α)}
    (hpath : ∀ p ∈ climbPairs f x path, p ∈ seen) (h : climb f x path = treeHash f e l) :
    ∃ i sub, descend (path.map Prod.fst).reverse l = some (i, sub) ∧ treeHash f e sub = x := by
  -- The topmost step splits the tree at the root; the rest climbs to one of its parts.
  induction path using List.reverseRecOn generalizing l with
  | nil => exact ⟨0, l, rfl, h.symm⟩
  | append_singleton path step ih =>
    obtain ⟨side, sibling⟩ := step
    rw [climb_append] at h
    rw [climbPairs_append] at hpath
    have hrest : ∀ p ∈ climbPairs f x path, p ∈ seen :=
      fun p hp => hpath p (List.mem_append_left _ hp)
    have htop : ∀ p ∈ climbPairs f (climb f x path) [(side, sibling)], p ∈ seen :=
      fun p hp => hpath p (List.mem_append_right _ hp)
    have hpair : ∃ p ∈ seen, f p.1 p.2 = treeHash f e l ∧
        p = (match side with
          | .left => (climb f x path, sibling)
          | .right => (sibling, climb f x path)) := by
      cases side with
      | left => exact ⟨(climb f x path, sibling), htop _ (by simp [climbPairs]), h, rfl⟩
      | right => exact ⟨(sibling, climb f x path), htop _ (by simp [climbPairs]), h, rfl⟩
    obtain ⟨p, hp, hhash, hpe⟩ := hpair
    -- The root is a pair, so the tree is not a single leaf.
    have hlen : 2 ≤ l.length := by
      by_contra hsmall
      obtain ⟨a, rfl⟩ : ∃ a, l = [a] :=
        List.length_eq_one_iff.mp (by have := List.length_pos_iff.mpr hne; omega)
      rw [treeHash_singleton] at hhash
      exact hleaf p hp (by simp [hhash])
    have hsplit := nodePairs_split (f := f) (e := e) hlen
    have hroot := hlog (treeHash f e (l.take (split l.length)), treeHash f e (l.drop (split l.length)))
      (by rw [hsplit]; exact List.mem_cons_self)
    rw [treeHash_split hlen] at hhash
    have heq := hinj hp hroot hhash
    have hlt := split_lt hlen
    have hpos := split_pos l.length
    rw [List.map_append, List.reverse_append, List.map_singleton, List.reverse_singleton,
      List.singleton_append]
    cases side with
    | left =>
      rw [hpe, Prod.mk.injEq] at heq
      rw [descend_left hlen]
      have hne' : l.take (split l.length) ≠ [] :=
        List.ne_nil_of_length_pos (by rw [List.length_take]; omega)
      exact ih hne' (fun p hp hm => hleaf p hp (List.mem_of_mem_take hm))
        (fun p hp => hlog p (by rw [hsplit]; simp [hp])) hrest heq.1
    | right =>
      rw [hpe, Prod.mk.injEq] at heq
      have hne' : l.drop (split l.length) ≠ [] :=
        List.ne_nil_of_length_pos (by rw [List.length_drop]; omega)
      obtain ⟨i, sub, hdesc, hsub⟩ := ih hne' (fun p hp hm => hleaf p hp (List.mem_of_mem_drop hm))
        (fun p hp => hlog p (by rw [hsplit]; simp [hp])) hrest heq.2
      exact ⟨split l.length+i, sub, by rw [descend_right hlen, hdesc]; rfl, hsub⟩

/-- Lists of one length with one tree hash are the same, where the pairing has no
collision among the pairs hashed. -/
theorem treeHash_inj {seen : Set (α × α)} (hinj : Set.InjOn (fun p => f p.1 p.2) seen)
    {l r : List α} (hl : ∀ p ∈ nodePairs f e l, p ∈ seen) (hr : ∀ p ∈ nodePairs f e r, p ∈ seen)
    (hlen : l.length = r.length) (h : treeHash f e l = treeHash f e r) : l = r := by
  induction hn : l.length using Nat.strong_induction_on generalizing l r with
  | _ n ih =>
    by_cases hsmall : n < 2
    · match l, r with
      | [], [] => rfl
      | [a], [b] => simpa using h
      | [], _ :: _ | _ :: _, [] | [_], _ :: _ :: _ | _ :: _ :: _, [_] => simp at hlen
      | _ :: _ :: _, _ :: _ :: _ => simp at hn; omega
    · have hl' := nodePairs_split (f := f) (e := e) (l := l) (by omega)
      have hr' := nodePairs_split (f := f) (e := e) (l := r) (by omega)
      have hlt := split_lt (n := l.length) (by omega)
      have hpos := split_pos l.length
      rw [treeHash_split (l := l) (by omega), treeHash_split (l := r) (by omega)] at h
      have heq := hinj (hl _ (by rw [hl']; exact List.mem_cons_self))
        (hr _ (by rw [hr']; exact List.mem_cons_self)) h
      rw [Prod.mk.injEq, ← hlen] at heq
      rw [← hlen] at hr'
      have htake := ih (l.take (split l.length)).length (by rw [List.length_take]; omega)
        (fun p hp => hl p (by rw [hl']; simp [hp])) (fun p hp => hr p (by rw [hr']; simp [hp]))
        (by simp [hlen]) heq.1 rfl
      have hdrop := ih (l.drop (split l.length)).length (by rw [List.length_drop]; omega)
        (fun p hp => hl p (by rw [hl']; simp [hp])) (fun p hp => hr p (by rw [hr']; simp [hp]))
        (by simp [hlen]) heq.2 rfl
      rw [← List.take_append_drop (split l.length) l, htake, hdrop, List.take_append_drop]

end Pair

end ScpCore.Merkle
