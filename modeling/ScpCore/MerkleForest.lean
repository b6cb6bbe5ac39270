import ScpCore.MerkleTree

/-! Merkle trees built leaf by leaf. A forest of perfect subtrees, one for each bit of the number
of leaves, takes a new leaf by a binary carry; folded from its smallest tree, it gives the tree
hash of all leaves. -/

namespace ScpCore.Merkle

section Forest
variable {α : Type} (f : α → α → α) (e : α)

/-- A subtree put on the stack, top first: while the tree below it has its level, the two are
combined into their parent. -/
def carry (top : ℕ × α) : List (ℕ × α) → List (ℕ × α)
  | [] => [top]
  | below :: rest =>
    if below.1 = top.1 then carry (top.1+1, f below.2 top.2) rest else top :: below :: rest

/-- The trees folded from the smallest, each a left child of the next. -/
def foldForest : List (ℕ × α) → α
  | [] => e
  | top :: rest => rest.foldl (fun root left => f left.2 root) top.2

/-- The level-by-level fold: pair up until one node is left. -/
def foldLevels : ℕ → List α → α
  | 0, nodes => nodes.headD e
  | fuel+1, nodes => if 1 < nodes.length then foldLevels fuel (pairUp f nodes) else nodes.headD e

/-- The stack, top first, holds the perfect trees over the leaves: a tree of level `L` over `2^L`
of them, the smallest over the last. -/
inductive Forest : List (ℕ × α) → List α → Prop
  | nil : Forest [] []
  | cons {level : ℕ} {block leaves : List α} {rest : List (ℕ × α)} (hrest : Forest rest leaves)
      (hblock : block.length = 2^level) (hlevel : ∀ tree ∈ rest, level < tree.1) :
      Forest ((level, treeHash f e block) :: rest) (leaves ++ block)

variable {f e} {stack : List (ℕ × α)} {leaves : List α}

/-- A block of a power of two and at most as many leaves after it are the two children. -/
theorem treeHash_append {level : ℕ} {block after : List α} (hblock : block.length = 2^level)
    (hne : after ≠ []) (hafter : after.length ≤ 2^level) :
    treeHash f e (block ++ after) = f (treeHash f e block) (treeHash f e after) := by
  have hpos := List.length_pos_iff.mpr hne
  have hone := Nat.two_pow_pos level
  have hlen : (block ++ after).length = 2^level+after.length := by
    rw [List.length_append, hblock]
  have hsplit : split (block ++ after).length = block.length := by
    rw [hblock]
    apply split_eq <;> omega
  rw [treeHash_split (by omega), hsplit, List.take_left, List.drop_left]

theorem Forest.carry {level : ℕ} {block : List α} (h : Forest f e stack leaves)
    (hblock : block.length = 2^level) (hlevel : ∀ tree ∈ stack, level ≤ tree.1) :
    Forest f e (carry f (level, treeHash f e block) stack) (leaves ++ block) := by
  induction h generalizing level block with
  | nil => exact .cons .nil hblock (by simp)
  | @cons below blockBelow leaves rest hrest hbelow habove ih =>
    rw [Merkle.carry]
    by_cases hsame : below = level
    · -- The two trees of one level are one tree of the next.
      subst hsame
      have hne : block ≠ [] := by
        apply List.ne_nil_of_length_pos
        rw [hblock]
        exact Nat.two_pow_pos below
      have hboth : (blockBelow ++ block).length = 2^(below+1) := by
        rw [List.length_append, hbelow, hblock, pow_succ]
        omega
      have hjoin := treeHash_append (f := f) (e := e) hbelow hne hblock.le
      rw [if_pos rfl, ← hjoin, List.append_assoc]
      exact ih hboth habove
    · have hle := hlevel (below, treeHash f e blockBelow) (by simp)
      dsimp only at hle
      rw [if_neg hsame]
      refine .cons (.cons hrest hbelow habove) hblock ?_
      intro tree htree
      rcases List.mem_cons.mp htree with rfl | htree
      · dsimp only
        omega
      · have hgreater := habove tree htree
        omega

/-- A leaf is a tree of level zero. -/
theorem Forest.push (h : Forest f e stack leaves) (leaf : α) :
    Forest f e (Merkle.carry f (0, leaf) stack) (leaves ++ [leaf]) := by
  have hone : [leaf].length = 2^0 := rfl
  have hcarry := h.carry hone (fun tree _ => Nat.zero_le tree.1)
  rwa [treeHash_singleton] at hcarry

/-- Folding a forest into the hash of the leaves after it. -/
theorem Forest.foldl_eq (h : Forest f e stack leaves) {after : List α} (hne : after ≠ [])
    (hafter : ∀ tree ∈ stack, after.length ≤ 2^tree.1) :
    stack.foldl (fun root left => f left.2 root) (treeHash f e after) =
      treeHash f e (leaves ++ after) := by
  induction h generalizing after with
  | nil => rfl
  | @cons level block leaves rest hrest hblock hlevel ih =>
    have hle := hafter (level, treeHash f e block) (by simp)
    have hjoin := treeHash_append (f := f) (e := e) hblock hne hle
    rw [List.foldl_cons, ← hjoin, List.append_assoc]
    apply ih
    · simp [hne]
    · intro tree htree
      have hpow : 2^(level+1) ≤ 2^tree.1 := Nat.pow_le_pow_right (by omega) (hlevel tree htree)
      rw [List.length_append, hblock]
      rw [pow_succ] at hpow
      dsimp only at hle
      omega

/-- The fold of a forest is the tree hash of its leaves. -/
theorem Forest.foldForest_eq (h : Forest f e stack leaves) :
    foldForest f e stack = treeHash f e leaves := by
  cases h with
  | nil => exact treeHash_nil.symm
  | @cons level block leaves rest hrest hblock hlevel =>
    apply hrest.foldl_eq
    · apply List.ne_nil_of_length_pos
      rw [hblock]
      exact Nat.two_pow_pos level
    · intro tree htree
      rw [hblock]
      exact Nat.pow_le_pow_right (by omega) (hlevel tree htree).le

theorem Forest.levels (h : Forest f e stack leaves) :
    stack.Pairwise (fun upper lower => upper.1 < lower.1) := by
  induction h with
  | nil => exact .nil
  | cons _ _ hlevel ih => exact .cons hlevel ih

theorem Forest.sum_levels (h : Forest f e stack leaves) :
    (stack.map (fun tree => 2^tree.1)).sum = leaves.length := by
  induction h with
  | nil => rfl
  | cons _ hblock _ ih =>
    rw [List.map_cons, List.sum_cons, ih, List.length_append, hblock]
    exact Nat.add_comm _ _

/-- The level-by-level fold is the tree hash too. -/
theorem foldLevels_eq {fuel : ℕ} {nodes : List α} (hfuel : nodes.length ≤ fuel+1) :
    foldLevels f e fuel nodes = treeHash f e nodes := by
  induction fuel generalizing nodes with
  | zero => exact (treeHash_small (by omega)).symm
  | succ fuel ih =>
    have hup := length_pairUp (f := f) nodes
    rw [foldLevels]
    by_cases hlen : 1 < nodes.length
    · rw [if_pos hlen, ih (by omega), treeHash_pairUp]
    · rw [if_neg hlen, treeHash_small (by omega)]

end Forest

end ScpCore.Merkle
